-- SUMMARY: Which memories a batch stands for, and exactly when every reconciled fact is visible afterwards.
import Supermemory.Storage.MemoryFlags

/-!
# Visibility

A batch names memories by temporary identifiers, by stored identifiers, and by content.
`plan` reads off what each proposal stands for before anything is written, from the
batch and the stored memories alone; the loop of `reconcileMemoriesFor` follows it. A
proposal that repeats a memory leaves it as it is, so its fact is not visible when that
memory has expired, or when an earlier proposal of the batch has retired it.
-/

namespace Storage

variable {env : Env} {now : Time} {batch : Batch} {db db' : Database}

-- ---------------------------------------------------------------------------
-- The plan of a batch
-- ---------------------------------------------------------------------------

/-- What the names of a batch stand for at one of its proposals. -/
structure Names where
  temporaryIds : List (String × String)
  exactMemories : List (String × String)
  /-- The memories of the profile. -/
  present : List String
  idsDrawn : Nat

/-- What a proposal stands for, and the memories that its `updates` parents name. -/
structure Planned where
  id : String
  isNew : Bool
  updates : List String

def Names.start (env : Env) (batch : Batch) (db : Database) : Names where
  temporaryIds := []
  exactMemories := activeMemoryIdsByContent env db batch.orgId batch.containerTag
  present := (db.memories.rows.filter fun m =>
    m.orgId = batch.orgId ∧ m.containerTag = batch.containerTag).map (·.id)
  idsDrawn := db.idsDrawn

def Names.updates (n : Names) (proposal : MemoryProposal) : List String :=
  ((proposal.parents.filter (·.relation = "updates")).map fun parent =>
    (n.temporaryIds.lookup parent.memoryId).getD parent.memoryId).filter (· ∈ n.present)

/-- A proposal repeats the memory with its content, and is new if there is none. -/
def Names.planned (env : Env) (n : Names) (proposal : MemoryProposal) : Planned :=
  match n.exactMemories.lookup (normalizedMemory env proposal.content) with
  | some id => { id, isNew := false, updates := n.updates proposal }
  | none => { id := "mem_" ++ env.generateId n.idsDrawn, isNew := true, updates := n.updates proposal }

def Names.next (env : Env) (n : Names) (proposal : MemoryProposal) : Names :=
  let planned := n.planned env proposal
  let temporaryIds := (proposal.temporaryId, planned.id) :: n.temporaryIds
  if planned.isNew then
    { temporaryIds
      exactMemories := (normalizedMemory env proposal.content, planned.id) :: n.exactMemories
      present := planned.id :: n.present
      idsDrawn := n.idsDrawn + 1 }
  else { n with temporaryIds }

def plan (env : Env) : Names → List MemoryProposal → List Planned
  | _, [] => []
  | n, proposal :: rest => n.planned env proposal :: plan env (n.next env proposal) rest

/-- The plan of a batch for a store. -/
def planFor (env : Env) (batch : Batch) (db : Database) (proposals : List MemoryProposal) : List Planned :=
  plan env (Names.start env batch db) proposals

theorem plan_getElem? {n : Names} {proposals : List MemoryProposal} {i : Nat} :
    (plan env n proposals)[i]? =
      proposals[i]?.map fun proposal => ((proposals.take i).foldl (Names.next env) n).planned env proposal := by
  induction proposals generalizing n i with
  | nil => rfl
  | cons proposal rest ih =>
    cases i with
    | zero => rfl
    | succ i => simp [plan, ih]

theorem plan_take {n : Names} {proposals : List MemoryProposal} {i : Nat} :
    plan env n (proposals.take i) = (plan env n proposals).take i := by
  induction proposals generalizing n i with
  | nil => simp [plan]
  | cons proposal rest ih =>
    cases i with
    | zero => rfl
    | succ i => simp [plan, ih]

theorem plan_length {n : Names} {proposals : List MemoryProposal} :
    (plan env n proposals).length = proposals.length := by
  induction proposals generalizing n with
  | nil => rfl
  | cons proposal rest ih => simp [plan, ih]

-- ---------------------------------------------------------------------------
-- Visible facts
-- ---------------------------------------------------------------------------

/-- The memory is active, and its row has a property. -/
def ActiveWith (P : Memory → Prop) (db : Database) (id : String) : Prop :=
  ∃ m ∈ db.memories, m.id = id ∧ m.IsActive ∧ P m

/-- The memory is active and has not expired. -/
def Shown (env : Env) (now : Time) (db : Database) (id : String) : Prop :=
  ∃ m ∈ db.memories, m.id = id ∧ m.IsActive ∧ Unexpired env now m

/-- Searches and profiles at that time see the memory. -/
def Visible (env : Env) (now : Time) (db : Database) (id : String) : Prop :=
  ∃ m ∈ db.memories, m.id = id ∧ m.isLatest = true ∧ m.isForgotten = false ∧ Unexpired env now m ∧
    ∃ e ∈ db.memoryEmbeddings, e.memoryId = id ∧ e.active = true

/-- When the loop reaches the proposal, one of its `updates` parents resolves to the memory. -/
def UpdatesAt (env : Env) (now : Time) (batch : Batch) (proposals : List MemoryProposal) (db : Database)
    (j : Nat) (id : String) : Prop :=
  ∃ s proposal, reconcileProposals env now batch (proposals.take j) (reconciliationStart env batch db) = .ok s ∧
    proposals[j]? = some proposal ∧
    id ∈ updatedIds (resolveMemoryParents s.db batch.orgId batch.containerTag proposal.parents s.temporaryIds)

/-- The fact of every proposal is visible after the call, unless the same or a later proposal of the
    batch updates its memory. -/
def FactsVisible (env : Env) (now : Time) (batch : Batch) (proposals : List MemoryProposal) (db : Database)
    (records : List MemoryRecord) (db' : Database) : Prop :=
  ∀ i < proposals.length, ∃ record, records[i]? = some record ∧
    ((∃ j, i ≤ j ∧ UpdatesAt env now batch proposals db j record.id) ∨ Visible env now db' record.id)

/-- A repeated memory has not expired, and no earlier proposal of the batch retired it. -/
def RepeatsShown (env : Env) (now : Time) (batch : Batch) (proposals : List MemoryProposal)
    (db : Database) : Prop :=
  let plan := planFor env batch db proposals
  ∀ (i : Nat) (p : Planned), plan[i]? = some p → p.isNew = false →
    (∃ (j : Nat) (q : Planned), i ≤ j ∧ plan[j]? = some q ∧ p.id ∈ q.updates) ∨
    (∀ m ∈ db.memories, m.id = p.id → Unexpired env now m) ∧
      ∀ k < i, ∀ q : Planned, plan[k]? = some q → q.isNew = true → p.id ∉ q.updates

-- ---------------------------------------------------------------------------
-- The loop follows the plan
-- ---------------------------------------------------------------------------

/-- The state of the loop after the proposals that `past` was planned for. -/
structure Progress (env : Env) (now : Time) (batch : Batch) (db : Database) (past : List Planned) (n : Names)
    (s : Reconciliation) : Prop where
  temporaryIds : s.temporaryIds = n.temporaryIds
  exactMemories : s.exactMemories = n.exactMemories
  idsDrawn : s.db.idsDrawn = n.idsDrawn
  recordIds : s.recordIds = past.map (·.id)
  present : ∀ id, id ∈ n.present ↔
    ∃ m ∈ s.db.memories, m.id = id ∧ m.orgId = batch.orgId ∧ m.containerTag = batch.containerTag
  kept : ∀ m ∈ db.memories, ∃ m' ∈ s.db.memories, m'.id = m.id
  stored : ∀ id ∈ (Names.start env batch db).present, id ∈ n.present
  born : ∀ id ∈ n.present, id ∈ (Names.start env batch db).present ∨ ∀ m ∈ db.memories, m.id ≠ id
  exact : ∀ content id, n.exactMemories.lookup content = some id → id ∈ n.present ∧
    (id ∈ (Names.start env batch db).present → ∃ m ∈ db.memories, m.id = id ∧ m.IsActive)
  planned : ∀ p ∈ past, p.id ∈ n.present ∧ ∀ id ∈ p.updates, id ∈ n.present
  shown : ∀ id ∈ n.present, Shown env now s.db id ↔
    (id ∈ (Names.start env batch db).present → Shown env now db id) ∧
      ∀ p ∈ past, p.isNew = true → id ∉ p.updates
  covers : Covers env batch s

theorem Names.mem_updates {n : Names} {proposal : MemoryProposal} {id : String} :
    id ∈ n.updates proposal ↔ id ∈ n.present ∧ ∃ parent ∈ proposal.parents, parent.relation = "updates" ∧
      (n.temporaryIds.lookup parent.memoryId).getD parent.memoryId = id := by
  simp only [Names.updates, List.mem_filter, List.mem_map, decide_eq_true_eq, and_assoc]
  exact and_comm

/-- What the `updates` parents resolve to is what they name, among the memories of the profile. -/
theorem Names.updates_resolved {n : Names} {s : Reconciliation} {proposal : MemoryProposal} {id : String}
    (htemporary : s.temporaryIds = n.temporaryIds)
    (hpresent : ∀ id, id ∈ n.present ↔
      ∃ m ∈ s.db.memories, m.id = id ∧ m.orgId = batch.orgId ∧ m.containerTag = batch.containerTag) :
    id ∈ n.updates proposal ↔
      id ∈ updatedIds (resolveMemoryParents s.db batch.orgId batch.containerTag proposal.parents
        s.temporaryIds) := by
  rw [Names.mem_updates, mem_updatedIds, hpresent, htemporary]
  constructor
  · rintro ⟨⟨m, hm, hid, hprofile⟩, parent, hparent, hrelation, hname⟩
    refine ⟨⟨m.id, parent.relation, m.rootMemoryId, m.version⟩, ?_, hrelation, hid⟩
    refine List.mem_filterMap.mpr ⟨parent, hparent, ?_⟩
    simp only [hname, Table.find_eq_some.mpr ⟨hm, hid⟩, if_pos hprofile]
  · rintro ⟨p, hp, hrelation, hid⟩
    obtain ⟨m, hm, hread, horg, hcontainer, _⟩ := mem_resolveMemoryParents hp
    refine ⟨⟨m, hm, hread.trans hid, horg, hcontainer⟩, ?_⟩
    obtain ⟨parent, hparent, hresolved⟩ := List.mem_filterMap.mp hp
    simp only at hresolved
    split at hresolved
    · cases hresolved
    · rename_i m' hfind
      split at hresolved
      · cases hresolved
        exact ⟨parent, hparent, hrelation, (Table.find_key hfind).symm.trans hid⟩
      · cases hresolved

theorem mem_start_present {id : String} : id ∈ (Names.start env batch db).present ↔
    ∃ m ∈ db.memories, m.id = id ∧ m.orgId = batch.orgId ∧ m.containerTag = batch.containerTag := by
  simp only [Names.start, List.mem_map, List.mem_filter, decide_eq_true_eq, Table.mem_rows]
  constructor
  · rintro ⟨m, ⟨hm, hprofile⟩, hid⟩
    exact ⟨m, hm, hid, hprofile⟩
  · rintro ⟨m, hm, hid, hprofile⟩
    exact ⟨m, ⟨hm, hprofile⟩, hid⟩

theorem Progress.start : Progress env now batch db [] (Names.start env batch db)
    (reconciliationStart env batch db) where
  temporaryIds := rfl
  exactMemories := rfl
  idsDrawn := rfl
  recordIds := rfl
  present _ := mem_start_present
  kept m hm := ⟨m, hm, rfl⟩
  stored _ h := h
  born _ h := .inl h
  exact content id h := by
    obtain ⟨m, hm, hid, horg, hcontainer, hactive, _⟩ := activeMemoryIdsByContent_sound h
    exact ⟨mem_start_present.mpr ⟨m, hm, hid, horg, hcontainer⟩, fun _ => ⟨m, hm, hid, hactive⟩⟩
  planned := nofun
  shown id h := ⟨fun hshown => ⟨fun _ => hshown, nofun⟩, fun hshown => hshown.1 h⟩
  covers := covers_start env batch db

section Turn

variable {past : List Planned} {n : Names} {s s' : Reconciliation} {proposal : MemoryProposal}
  {parents : List ResolvedParent} {id : String}

theorem Progress.repeats_planned (h : Progress env now batch db past n s)
    (hlookup : s.exactMemories.lookup (normalizedMemory env proposal.content) = some id) :
    n.planned env proposal = ⟨id, false, n.updates proposal⟩ := by
  simp only [Names.planned, ← h.exactMemories, hlookup]

/-- The memories planned so far are active unless the store held them inactive, or one of the new
    memories has retired them. -/
def Survive (P : Memory → Prop) (start : List String) (db : Database) (past : List Planned) (present : List String)
    (db' : Database) : Prop :=
  ∀ id ∈ present, ActiveWith P db' id ↔ (id ∈ start → ActiveWith P db id) ∧
    ∀ p ∈ past, p.isNew = true → id ∉ p.updates

theorem Progress.survive_repeats {P : Memory → Prop} {start : List String} (h : Progress env now batch db past n s)
    (hsurvive : Survive P start db past n.present s.db)
    (hlookup : s.exactMemories.lookup (normalizedMemory env proposal.content) = some id) :
    Survive P start db (past ++ [n.planned env proposal]) n.present (matched batch proposal id s).db := by
  intro id' hid'
  refine (hsurvive id' hid').trans (and_congr_right fun _ => ?_)
  rw [h.repeats_planned hlookup]
  simp [or_imp, forall_and]

theorem Progress.repeats (h : Progress env now batch db past n s)
    (hlookup : s.exactMemories.lookup (normalizedMemory env proposal.content) = some id) :
    Progress env now batch db (past ++ [n.planned env proposal]) (n.next env proposal)
      (matched batch proposal id s) := by
  have hplanned := h.repeats_planned hlookup
  have hnext : n.next env proposal =
      { n with temporaryIds := (proposal.temporaryId, id) :: n.temporaryIds } := by
    simp [Names.next, hplanned]
  rw [hplanned, hnext]
  constructor
  case temporaryIds => exact congrArg ((proposal.temporaryId, id) :: ·) h.temporaryIds
  case exactMemories => exact h.exactMemories
  case idsDrawn => exact h.idsDrawn
  case recordIds => simp [matched, h.recordIds]
  case present => exact h.present
  case kept => exact h.kept
  case stored => exact h.stored
  case born => exact h.born
  case exact => exact h.exact
  case planned =>
    intro p hp
    rcases List.mem_append.mp hp with hp | hp
    · exact h.planned p hp
    · obtain rfl := List.mem_singleton.mp hp
      exact ⟨(h.exact _ _ (h.exactMemories ▸ hlookup)).1, fun id' hid' => (Names.mem_updates.mp hid').1⟩
  case shown =>
    rw [← hplanned]
    exact h.survive_repeats h.shown hlookup
  case covers => exact h.covers

theorem newMemory_unexpired (env : Env) (now : Time) (batch : Batch) (proposal : MemoryProposal)
    (parents : List ResolvedParent) (id : String) :
    Unexpired env now (newMemory env now batch proposal parents id) := by
  intro value hvalue
  obtain ⟨_, hfuture⟩ := Option.filter_eq_some_iff.mp hvalue
  exact of_decide_eq_true hfuture

/-- A new memory changes which of the other ones are active only by retiring its parents. -/
theorem Creates.activeWith {P : Memory → Prop} (h : Creates env now batch proposal s s' parents id)
    (hcovers : Covers env batch s) {other : String} (hother : other ≠ id) :
    ActiveWith P s'.db other ↔ ActiveWith P s.db other ∧ other ∉ updatedIds parents := by
  have hadds := h.adds hcovers
  have hwithdraws := retiredParents_withdraws now s.db parents
  constructor
  · rintro ⟨m, hm, hid, hactive, hP⟩
    rcases (hadds.memories m).mp hm with hm | rfl
    · obtain ⟨hold, hkept⟩ := FlagsAgree.untouched hwithdraws hm hactive.latest
      exact ⟨⟨m, hold, hid, hactive, hP⟩, hid ▸ hkept⟩
    · exact absurd hid.symm hother
  · rintro ⟨⟨m, hm, hid, hshown⟩, hkept⟩
    refine ⟨m, (hadds.memories m).mpr (.inl ((hwithdraws.memories m).mpr ⟨m, hm, ?_⟩)), hid, hshown⟩
    exact (if_neg (hid ▸ hkept)).symm

theorem Progress.creates_planned (h : Progress env now batch db past n s)
    (hc : Creates env now batch proposal s s' parents id) :
    n.planned env proposal = ⟨id, true, n.updates proposal⟩ := by
  simp only [Names.planned, ← h.exactMemories, hc.unmatched, ← h.idsDrawn, ← hc.drawn]

theorem Progress.absent (h : Progress env now batch db past n s)
    (hc : Creates env now batch proposal s s' parents id) : id ∉ n.present := by
  intro hmem
  obtain ⟨m, hm, hid, _⟩ := (h.present id).mp hmem
  exact hc.fresh m hm hid

theorem Progress.survive_creates {P : Memory → Prop} (h : Progress env now batch db past n s)
    (hsurvive : Survive P (Names.start env batch db).present db past n.present s.db)
    (hc : Creates env now batch proposal s s' parents id)
    (hnew : P (newMemory env now batch proposal parents id)) :
    Survive P (Names.start env batch db).present db (past ++ [n.planned env proposal]) (id :: n.present) s'.db := by
  have hadds := hc.adds h.covers
  have habsent := h.absent hc
  have hupdates : ∀ id', id' ∈ n.updates proposal ↔ id' ∈ updatedIds parents := by
    intro id'
    rw [hc.resolved]
    exact Names.updates_resolved h.temporaryIds h.present
  intro id' hid'
  rw [h.creates_planned hc]
  simp only [List.mem_append, List.mem_singleton, or_imp, forall_and, forall_eq, true_imp_iff]
  rcases List.mem_cons.mp hid' with rfl | hold
  · refine iff_of_true ?_ ⟨fun hstart => absurd (h.stored _ hstart) habsent, ?_, ?_⟩
    · exact ⟨_, (hadds.memories _).mpr (.inr rfl), rfl, ⟨rfl, rfl⟩, hnew⟩
    · exact fun p hp _ hmem => habsent ((h.planned p hp).2 _ hmem)
    · exact fun hmem => habsent (Names.mem_updates.mp hmem).1
  · have hne : id' ≠ id := by
      rintro rfl
      exact habsent hold
    rw [hc.activeWith h.covers hne, hsurvive id' hold, hupdates, and_assoc]

theorem Progress.creates (h : Progress env now batch db past n s)
    (hc : Creates env now batch proposal s s' parents id) :
    Progress env now batch db (past ++ [n.planned env proposal]) (n.next env proposal) s' := by
  have hplanned := h.creates_planned hc
  have hnext : n.next env proposal =
      { temporaryIds := (proposal.temporaryId, id) :: n.temporaryIds
        exactMemories := (normalizedMemory env proposal.content, id) :: n.exactMemories
        present := id :: n.present
        idsDrawn := n.idsDrawn + 1 } := by
    simp [Names.next, hplanned]
  have hadds := hc.adds h.covers
  have hwithdraws := retiredParents_withdraws now s.db parents
  have habsent := h.absent hc
  have hunborn : ∀ m ∈ db.memories, m.id ≠ id := by
    intro m hm hid
    obtain ⟨m', hm', hid'⟩ := h.kept m hm
    exact hc.fresh m' hm' (hid'.trans hid)
  have hrows : ∀ m ∈ s.db.memories, ∃ m' ∈ s'.db.memories, m.Becomes m' := by
    intro m hm
    refine ⟨_, (hadds.memories _).mpr (.inl ((hwithdraws.memories _).mpr ⟨m, hm, rfl⟩)), ?_⟩
    exact hwithdraws.withdrawal.becomes_ite _ m
  rw [hplanned, hnext]
  constructor
  case temporaryIds => rw [hc.temporaryIds, h.temporaryIds]
  case exactMemories => rw [hc.exactMemories, h.exactMemories]
  case idsDrawn => rw [hc.idsDrawn, h.idsDrawn]
  case recordIds => simp [hc.recordIds, h.recordIds]
  case present =>
    intro id'
    rw [List.mem_cons, h.present]
    constructor
    · rintro (rfl | ⟨m, hm, hid, horg, hcontainer⟩)
      · exact ⟨_, (hadds.memories _).mpr (.inr rfl), rfl, rfl, rfl⟩
      · obtain ⟨m', hm', hbecomes⟩ := hrows m hm
        exact ⟨m', hm', hbecomes.id.trans hid, hbecomes.profile.1.trans horg,
          hbecomes.profile.2.trans hcontainer⟩
    · rintro ⟨m', hm', hid, horg, hcontainer⟩
      rcases (hadds.memories m').mp hm' with hm' | rfl
      · obtain ⟨m, hm, rfl⟩ := (hwithdraws.memories m').mp hm'
        have hbecomes := hwithdraws.withdrawal.becomes_ite (updatedIds parents) m
        exact .inr ⟨m, hm, hbecomes.id.symm.trans hid, hbecomes.profile.1.symm.trans horg,
          hbecomes.profile.2.symm.trans hcontainer⟩
      · exact .inl hid.symm
  case kept =>
    intro m hm
    obtain ⟨m', hm', hid⟩ := h.kept m hm
    obtain ⟨m'', hm'', hbecomes⟩ := hrows m' hm'
    exact ⟨m'', hm'', hbecomes.id.trans hid⟩
  case stored => exact fun id' hid' => List.mem_cons_of_mem _ (h.stored id' hid')
  case born =>
    intro id' hid'
    rcases List.mem_cons.mp hid' with rfl | hid'
    · exact .inr hunborn
    · exact h.born id' hid'
  case exact =>
    intro content id' hlookup
    rw [List.lookup_cons] at hlookup
    split at hlookup
    · cases hlookup
      refine ⟨List.mem_cons_self, fun hstart => ?_⟩
      exact absurd (h.stored id hstart) habsent
    · obtain ⟨hpresent, hactive⟩ := h.exact content id' hlookup
      exact ⟨List.mem_cons_of_mem _ hpresent, hactive⟩
  case planned =>
    intro p hp
    rcases List.mem_append.mp hp with hp | hp
    · obtain ⟨hid, hupdates⟩ := h.planned p hp
      exact ⟨List.mem_cons_of_mem _ hid, fun id' hid' => List.mem_cons_of_mem _ (hupdates id' hid')⟩
    · obtain rfl := List.mem_singleton.mp hp
      exact ⟨List.mem_cons_self, fun id' hid' => List.mem_cons_of_mem _ (Names.mem_updates.mp hid').1⟩
  case shown =>
    rw [← hplanned]
    exact h.survive_creates h.shown hc (newMemory_unexpired _ _ _ _ _ _)
  case covers => exact hc.covers h.covers

end Turn

section Run

variable {past : List Planned} {n : Names} {s s' : Reconciliation} {proposals : List MemoryProposal}

theorem Progress.turn {proposal : MemoryProposal} (h : Progress env now batch db past n s)
    (hone : reconcileProposal env now batch s proposal = .ok s') :
    Progress env now batch db (past ++ [n.planned env proposal]) (n.next env proposal) s' := by
  rcases reconcileProposal_ok hone with ⟨id, hlookup, rfl⟩ | ⟨parents, id, hcreates⟩
  · exact h.repeats hlookup
  · exact h.creates hcreates

theorem Progress.run (h : Progress env now batch db past n s)
    (hloop : reconcileProposals env now batch proposals s = .ok s') :
    Progress env now batch db (past ++ plan env n proposals) (proposals.foldl (Names.next env) n) s' := by
  induction proposals generalizing past n s with
  | nil =>
    cases hloop
    simpa [plan] using h
  | cons proposal rest ih =>
    rw [reconcileProposals] at hloop
    split at hloop
    · cases hloop
    · rename_i t hone
      simpa [plan] using ih (h.turn hone) hloop

theorem progress_of_loop (hloop : reconcileProposals env now batch proposals
    (reconciliationStart env batch db) = .ok s') :
    Progress env now batch db (planFor env batch db proposals)
      (proposals.foldl (Names.next env) (Names.start env batch db)) s' := by
  have hprogress := Progress.start.run hloop
  rwa [List.nil_append] at hprogress

/-- A loop that ends passed every one of its proposals. -/
theorem reconcileProposals_at {proposal : MemoryProposal} {i : Nat}
    (hloop : reconcileProposals env now batch proposals s = .ok s') (hi : proposals[i]? = some proposal) :
    ∃ t t', reconcileProposals env now batch (proposals.take i) s = .ok t ∧
      reconcileProposal env now batch t proposal = .ok t' := by
  induction proposals generalizing s i with
  | nil => cases hi
  | cons first rest ih =>
    rw [reconcileProposals] at hloop
    split at hloop
    · cases hloop
    · rename_i u hone
      cases i with
      | zero =>
        obtain rfl : first = proposal := by simpa using hi
        exact ⟨s, u, rfl, hone⟩
      | succ i =>
        obtain ⟨t, t', htake, hat⟩ := ih hloop (by simpa using hi)
        refine ⟨t, t', ?_, hat⟩
        rw [List.take_succ_cons, reconcileProposals, hone]
        exact htake

theorem Names.planned_updates (n : Names) (proposal : MemoryProposal) :
    (n.planned env proposal).updates = n.updates proposal := by
  unfold Names.planned
  split <;> rfl

theorem updatesAt_iff (hloop : reconcileProposals env now batch proposals (reconciliationStart env batch db) =
    .ok s') {j : Nat} {id : String} :
    UpdatesAt env now batch proposals db j id ↔
      ∃ q, (planFor env batch db proposals)[j]? = some q ∧ id ∈ q.updates := by
  constructor
  · rintro ⟨s, proposal, hbegins, hj, hmem⟩
    have hprogress := progress_of_loop hbegins
    refine ⟨Names.planned env _ proposal, by rw [planFor, plan_getElem?, hj, Option.map_some], ?_⟩
    rw [Names.planned_updates]
    exact (Names.updates_resolved hprogress.temporaryIds hprogress.present).mpr hmem
  · rintro ⟨q, hq, hmem⟩
    rw [planFor, plan_getElem?] at hq
    obtain ⟨proposal, hj, rfl⟩ := Option.map_eq_some_iff.mp hq
    obtain ⟨s, _, hbegins, _⟩ := reconcileProposals_at hloop hj
    have hprogress := progress_of_loop hbegins
    rw [Names.planned_updates] at hmem
    exact ⟨s, proposal, hbegins, hj,
      (Names.updates_resolved hprogress.temporaryIds hprogress.present).mp hmem⟩

/-- A planned proposal repeats a memory that the content map knew when the loop came to it, or its
    memory was new then. -/
theorem planned_cases (hloop : reconcileProposals env now batch proposals (reconciliationStart env batch db) =
    .ok s') {i : Nat} {p : Planned} (hp : (planFor env batch db proposals)[i]? = some p) :
    (p.isNew = false ∧ (p.id ∈ (Names.start env batch db).present → ∃ m ∈ db.memories, m.id = p.id ∧
      m.IsActive)) ∨
    (p.isNew = true ∧ ¬ p.id ∈ (Names.start env batch db).present ∧
      ∀ k < i, ∀ q, (planFor env batch db proposals)[k]? = some q → p.id ∉ q.updates) := by
  rw [planFor, plan_getElem?] at hp
  obtain ⟨proposal, hi, rfl⟩ := Option.map_eq_some_iff.mp hp
  obtain ⟨t, t', hbegins, hone⟩ := reconcileProposals_at hloop hi
  have hprogress := progress_of_loop hbegins
  rw [planFor, plan_take] at hprogress
  unfold Names.planned
  rcases reconcileProposal_ok hone with ⟨id, hlookup, rfl⟩ | ⟨parents, id, hcreates⟩
  · rw [hprogress.exactMemories] at hlookup
    rw [hlookup]
    exact .inl ⟨rfl, (hprogress.exact _ id hlookup).2⟩
  · have hunmatched := hcreates.unmatched
    have hdrawn := hcreates.drawn
    rw [hprogress.exactMemories] at hunmatched
    rw [hprogress.idsDrawn] at hdrawn
    have habsent : ¬ id ∈ ((proposals.take i).foldl (Names.next env) (Names.start env batch db)).present := by
      intro hmem
      obtain ⟨m, hm, hid, _⟩ := (hprogress.present id).mp hmem
      exact hcreates.fresh m hm hid
    rw [hunmatched, ← hdrawn]
    refine .inr ⟨rfl, fun hstart => habsent (hprogress.stored id hstart), fun k hk q hq hmem => habsent ?_⟩
    have hpast : q ∈ (planFor env batch db proposals).take i :=
      List.mem_of_getElem? (i := k) (by rw [List.getElem?_take_of_lt hk, hq])
    exact (hprogress.planned q hpast).2 id hmem

end Run

-- ---------------------------------------------------------------------------
-- Calls
-- ---------------------------------------------------------------------------

theorem readRecords_ids {ids : List String} {records : List MemoryRecord}
    (h : readRecords db ids = .ok records) : records.map (·.id) = ids := by
  induction ids generalizing records with
  | nil =>
    cases h
    rfl
  | cons id rest ih =>
    rw [readRecords] at h
    split at h
    · rename_i record tail hrecord htail
      cases h
      unfold readMemoryById at hrecord
      split at hrecord
      · cases hrecord
      · rename_i m hfind
        cases hrecord
        rw [List.map_cons, ih htail]
        exact congrArg (· :: rest) (Table.find_key hfind : m.id = id)
    · cases h
    · cases h

/-- A call that commits went through the loop, and leaves the memory tables of its end. -/
theorem reconcileMemoriesFor_loop {expectedRevision : Option Nat} {completionJobId : Option String}
    {proposals : List MemoryProposal} {records : List MemoryRecord}
    (hok : reconcileMemoriesFor env now batch expectedRevision completionJobId proposals db =
      .ok (records, db')) :
    ∃ s, reconcileProposals env now batch proposals (reconciliationStart env batch db) = .ok s ∧
      records.map (·.id) = s.recordIds ∧ SameMemories s.db db' ∧ db'.memorySources = s.db.memorySources := by
  obtain ⟨_, _, _, _, s, hloop, hrecords, hfinish⟩ := reconcileMemoriesFor_ok hok
  refine ⟨s, hloop, readRecords_ids hrecords, ?_⟩
  rcases hfinish with ⟨_, rfl⟩ | ⟨jobId, _, hfinish⟩
  · exact ⟨.refl _, rfl⟩
  · have hdb := (finishReconciliation_ok hfinish).2
    exact ⟨finishReconciliation_sameMemories hfinish, hdb ▸ rfl⟩

/-- The call returns the memory that was planned for each proposal. -/
theorem planned_record {expectedRevision : Option Nat} {completionJobId : Option String}
    {proposals : List MemoryProposal} {records : List MemoryRecord}
    (hok : reconcileMemoriesFor env now batch expectedRevision completionJobId proposals db =
      .ok (records, db')) : records.map (·.id) = (planFor env batch db proposals).map (·.id) := by
  obtain ⟨s, hloop, hids, _, _⟩ := reconcileMemoriesFor_loop hok
  exact hids.trans (progress_of_loop hloop).recordIds

theorem planned_record_at {plan : List Planned} {records : List MemoryRecord}
    (hids : records.map (·.id) = plan.map (·.id)) {i : Nat} {p : Planned} (hp : plan[i]? = some p) :
    ∃ record : MemoryRecord, records[i]? = some record ∧ record.id = p.id := by
  have hmap : (records.map (·.id))[i]? = some p.id := by
    rw [hids, List.getElem?_map, hp]
    rfl
  rw [List.getElem?_map] at hmap
  exact Option.map_eq_some_iff.mp hmap

/-- A store that a call leaves is reachable. -/
theorem reachable_reconciled {expectedRevision : Option Nat} {completionJobId : Option String}
    {proposals : List MemoryProposal} {records : List MemoryRecord} (h : (memoryMachine env).Reachable db)
    (hok : reconcileMemoriesFor env now batch expectedRevision completionJobId proposals db =
      .ok (records, db')) : (memoryMachine env).Reachable db' := by
  apply h.step (e := (now, .reconcile batch expectedRevision completionJobId proposals))
  simp only [memoryMachine, hok, Except.toOption, Option.map_some]

/-- What is shown has an active vector, so it is visible. -/
theorem FlagsAgree.visible (h : FlagsAgree env db) {id : String} :
    Visible env now db id ↔ Shown env now db id := by
  constructor
  · rintro ⟨m, hm, hid, hlatest, hforgotten, hunexpired, _⟩
    exact ⟨m, hm, hid, ⟨hlatest, hforgotten⟩, hunexpired⟩
  · rintro ⟨m, hm, hid, hactive, hunexpired⟩
    obtain ⟨e, he, heid⟩ := h.embedded m hm
    exact ⟨m, hm, hid, hactive.1, hactive.2, hunexpired, e, he, heid.trans hid,
      (h.active m hm e he heid).mpr hactive⟩

/-- Every fact of a batch is visible right after the call, unless the batch goes on to update it, if
    and only if no proposal repeats an expired memory or one that an earlier proposal retired. -/
theorem reconciled_facts_visible {expectedRevision : Option Nat} {completionJobId : Option String}
    {proposals : List MemoryProposal} {records : List MemoryRecord}
    (h : (memoryMachine env).Reachable db)
    (hok : reconcileMemoriesFor env now batch expectedRevision completionJobId proposals db =
      .ok (records, db')) :
    FactsVisible env now batch proposals db records db' ↔ RepeatsShown env now batch proposals db := by
  have hflags : FlagsAgree env db' := flagsAgree_of_reachable (reachable_reconciled h hok)
  obtain ⟨s, hloop, _, hsame, _⟩ := reconcileMemoriesFor_loop hok
  have hprogress := progress_of_loop hloop
  -- what is visible of the memory of a proposal in the end
  have hvisible : ∀ p ∈ planFor env batch db proposals, Visible env now db' p.id ↔
      (p.id ∈ (Names.start env batch db).present → Shown env now db p.id) ∧
        ∀ q ∈ planFor env batch db proposals, q.isNew = true → p.id ∉ q.updates := by
    intro p hp
    rw [hflags.visible, Shown, hsame.memories]
    exact hprogress.shown p.id (hprogress.planned p hp).1
  have hids := planned_record hok
  constructor
  · intro hfacts i p hp hrepeat
    have hi : i < proposals.length := by
      have hlt := (List.getElem?_eq_some_iff.mp hp).1
      rwa [planFor, plan_length] at hlt
    obtain ⟨record, hget, hfact⟩ := hfacts i hi
    obtain ⟨record', hget', hid⟩ := planned_record_at hids hp
    obtain rfl := Option.some_inj.mp (hget.symm.trans hget')
    rw [hid] at hfact
    rcases hfact with ⟨j, hj, hupdates⟩ | hseen
    · obtain ⟨q, hq, hmem⟩ := (updatesAt_iff hloop).mp hupdates
      exact .inl ⟨j, q, hj, hq, hmem⟩
    · have hmem := List.mem_of_getElem? hp
      obtain ⟨hshown, hkept⟩ := (hvisible p hmem).mp hseen
      refine .inr ⟨fun m hm hmid => ?_, fun k _ q hq => hkept q (List.mem_of_getElem? hq)⟩
      rcases hprogress.born p.id (hprogress.planned p hmem).1 with hstart | hunborn
      · obtain ⟨m', hm', hmid', _, hunexpired⟩ := hshown hstart
        obtain rfl := Table.eq_of_key hm hm' (hmid.trans hmid'.symm)
        exact hunexpired
      · exact absurd hmid (hunborn m hm)
  · intro hrepeats i hi
    obtain ⟨p, hp⟩ : ∃ p, (planFor env batch db proposals)[i]? = some p := by
      rw [planFor, plan_getElem?, List.getElem?_eq_getElem hi]
      exact ⟨_, rfl⟩
    obtain ⟨record, hget, hid⟩ := planned_record_at hids hp
    refine ⟨record, hget, ?_⟩
    rw [hid]
    by_cases hlater : ∃ j q, i ≤ j ∧ (planFor env batch db proposals)[j]? = some q ∧ p.id ∈ q.updates
    · obtain ⟨j, q, hj, hq, hmem⟩ := hlater
      exact .inl ⟨j, hj, (updatesAt_iff hloop).mpr ⟨q, hq, hmem⟩⟩
    · refine .inr ((hvisible p (List.mem_of_getElem? hp)).mpr ?_)
      -- only an earlier proposal can have retired the memory
      have hearlier : (∀ k < i, ∀ q, (planFor env batch db proposals)[k]? = some q → q.isNew = true →
          p.id ∉ q.updates) → ∀ q ∈ planFor env batch db proposals, q.isNew = true → p.id ∉ q.updates := by
        intro hkept q hq hnew hmem
        obtain ⟨k, hk⟩ := List.mem_iff_getElem?.mp hq
        rcases Nat.lt_or_ge k i with hlt | hge
        · exact hkept k hlt q hk hnew hmem
        · exact hlater ⟨k, q, hge, hk, hmem⟩
      rcases planned_cases hloop hp with ⟨hrepeat, hactive⟩ | ⟨hnew, hstart, hkept⟩
      · rcases hrepeats i p hp hrepeat with hexempt | ⟨hunexpired, hkept⟩
        · exact absurd hexempt hlater
        · refine ⟨fun hstart => ?_, hearlier hkept⟩
          obtain ⟨m, hm, hmid, hm_active⟩ := hactive hstart
          exact ⟨m, hm, hmid, hm_active, hunexpired m hm hmid⟩
      · exact ⟨fun h => absurd h hstart, hearlier fun k hk q hq _ => hkept k hk q hq⟩

/-- The store after the call, and what the call returns. -/
def reconciledAt (now : Time) (proposals : List MemoryProposal) (db : Database) :
    Option (List MemoryRecord × Database) :=
  (reconcileMemoriesFor unaryEnv now noteBatch none none proposals db).toOption

theorem reconciledAt_ok {proposals : List MemoryProposal} {r : List MemoryRecord × Database}
    (h : reconciledAt now proposals db = some r) :
    reconcileMemoriesFor unaryEnv now noteBatch none none proposals db = .ok (r.1, r.2) :=
  Loop.ok_of_mem_toOption h

theorem reconciled_facts_visible_coffee : ∃ db records db', updatedOnce = some db ∧
    reconciledAt 0 [proposalOf "c" "Coffee." [] none] db = some (records, db') ∧
    FactsVisible unaryEnv 0 noteBatch [proposalOf "c" "Coffee." [] none] db records db' := by
  obtain ⟨db, hdb⟩ : ∃ db, updatedOnce = some db := Option.isSome_iff_exists.mp (by decide +kernel)
  have hsome : ∀ db ∈ updatedOnce, (reconciledAt 0 [proposalOf "c" "Coffee." [] none] db).isSome = true := by
    decide +kernel
  obtain ⟨⟨records, db'⟩, hr⟩ := Option.isSome_iff_exists.mp (hsome db hdb)
  have hnew : ∀ db ∈ updatedOnce, ∀ p ∈ planFor unaryEnv noteBatch db [proposalOf "c" "Coffee." [] none],
      p.isNew = true := by
    decide +kernel
  refine ⟨db, records, db', hdb, hr, ?_⟩
  apply (reconciled_facts_visible (memoriesAfter_reachable hdb) (reconciledAt_ok hr)).mpr
  intro i p hp hrepeat
  rw [hnew db hdb p (List.mem_of_getElem? hp)] at hrepeat
  cases hrepeat

/-- A memory that expires at the first instant of 2024. -/
def expiringTea : Option Database :=
  memoriesAfter [(0, .reconcile noteBatch none none [proposalOf "a" "Tea." [] (some "2024-01-01T00:00:00Z")])]

/-- At that instant the same fact is reconciled again: the call returns the expired memory, and no
    visible memory holds the fact. -/
theorem repeated_fact_not_visible : ∃ db records db', expiringTea = some db ∧
    (memoryMachine unaryEnv).Reachable db ∧
    reconcileMemoriesFor unaryEnv 63871286400 noteBatch none none [proposalOf "b" "tea" [] none] db =
      .ok (records, db') ∧
    ¬ FactsVisible unaryEnv 63871286400 noteBatch [proposalOf "b" "tea" [] none] db records db' := by
  obtain ⟨db, hdb⟩ : ∃ db, expiringTea = some db := Option.isSome_iff_exists.mp (by decide +kernel)
  have hsome : ∀ db ∈ expiringTea, (reconciledAt 63871286400 [proposalOf "b" "tea" [] none] db).isSome = true := by
    decide +kernel
  obtain ⟨⟨records, db'⟩, hr⟩ := Option.isSome_iff_exists.mp (hsome db hdb)
  have hexpired : ∀ db ∈ expiringTea, ∀ r ∈ reconciledAt 63871286400 [proposalOf "b" "tea" [] none] db,
      ∀ m ∈ r.2.memories.rows, ¬ Unexpired unaryEnv 63871286400 m := by
    decide +kernel
  refine ⟨db, records, db', hdb, memoriesAfter_reachable hdb, reconciledAt_ok hr, fun hfacts => ?_⟩
  obtain ⟨record, _, ⟨j, _, _, proposal, _, hj, hmem⟩ | ⟨m, hm, _, _, _, hunexpired, _⟩⟩ :=
    hfacts 0 (by simp)
  · obtain rfl := List.mem_singleton.mp (List.mem_of_getElem? hj)
    exact List.not_mem_nil hmem
  · exact hexpired db hdb _ hr m hm hunexpired

end Storage
