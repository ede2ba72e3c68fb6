-- SUMMARY: What can happen to the memory tables: memories are withdrawn, a memory is added, or nothing.
import Mathlib.Logic.Relation
import Supermemory.Library.Loop
import Supermemory.Storage.CallEffects

/-!
# Memory steps

Seen from the memory tables, the store does three things. It withdraws memories, which
are then neither latest nor static and whose vectors are inactive. It adds a latest
memory whose content no active memory of its profile has, with the relations to its
parents. Or it leaves the tables alone. Reconciling a batch is a sequence of such
steps, and so is forgetting.
-/

namespace Storage

variable {env : Env} {now : Time} {db db' : Database}

/-- `is_latest=1 AND is_forgotten=0`. -/
def Memory.IsActive (m : Memory) : Prop := m.isLatest = true ∧ m.isForgotten = false

/-- Two memories of one profile, that is of one container of one organization. -/
def SameProfile (m m' : Memory) : Prop := m.orgId = m'.orgId ∧ m.containerTag = m'.containerTag

/-- A memory without parent starts a line, and any other one continues the line of its parent. -/
def Descends (db : Database) (m : Memory) : Prop :=
  (m.parentMemoryId = none ∧ m.rootMemoryId = none ∧ m.version = 1) ∨
  ∃ p ∈ db.memories, SameProfile p m ∧ m.parentMemoryId = some p.id ∧ m.version = p.version + 1 ∧
    m.rootMemoryId = some (p.rootMemoryId.getD p.id)

-- ---------------------------------------------------------------------------
-- Steps
-- ---------------------------------------------------------------------------

structure SameMemories (db db' : Database) : Prop where
  memories : db'.memories = db.memories
  embeddings : db'.memoryEmbeddings = db.memoryEmbeddings
  relations : db'.memoryRelations = db.memoryRelations

def deactivated (e : MemoryEmbedding) : MemoryEmbedding := { e with active := false }

/-- What the row of a memory can become: it stays who it is and where it comes from, and neither
    becomes latest again nor is remembered again. -/
structure Memory.Becomes (m m' : Memory) : Prop where
  id : m'.id = m.id
  profile : SameProfile m' m
  content : m'.content = m.content
  parentMemoryId : m'.parentMemoryId = m.parentMemoryId
  rootMemoryId : m'.rootMemoryId = m.rootMemoryId
  version : m'.version = m.version
  latest : m'.isLatest = true → m.isLatest = true
  forgotten : m.isForgotten = true → m'.isForgotten = true

/-- An assignment that takes a memory out of its profile. -/
structure Withdrawal (f : Memory → Memory) : Prop where
  becomes : ∀ m : Memory, m.Becomes (f m)
  notLatest : ∀ m, (f m).isLatest = false
  notStatic : ∀ m, (f m).isStatic = false

structure Withdraws (db db' : Database) (ids : List String) (f : Memory → Memory) : Prop where
  withdrawal : Withdrawal f
  memories : ∀ m, m ∈ db'.memories ↔ ∃ m₀ ∈ db.memories, m = if m₀.id ∈ ids then f m₀ else m₀
  embeddings : ∀ e, e ∈ db'.memoryEmbeddings ↔
    ∃ e₀ ∈ db.memoryEmbeddings, e = if e₀.memoryId ∈ ids then deactivated e₀ else e₀
  relations : db'.memoryRelations = db.memoryRelations

structure Adds (env : Env) (db db' : Database) (m : Memory) (e : MemoryEmbedding)
    (links : List MemoryRelation) : Prop where
  fresh : ∀ m₀ ∈ db.memories, m₀.id ≠ m.id
  memories : ∀ m', m' ∈ db'.memories ↔ m' ∈ db.memories ∨ m' = m
  embeddings : ∀ e', e' ∈ db'.memoryEmbeddings ↔ e' ∈ db.memoryEmbeddings ∨ e' = e
  relations : ∀ r, r ∈ db'.memoryRelations ↔ r ∈ db.memoryRelations ∨ r ∈ links
  isActive : m.IsActive
  embedded : e.memoryId = m.id ∧ e.active = true
  descends : Descends db m
  linked : ∀ r ∈ links, r.childId = m.id ∧
    ∃ p ∈ db.memories, p.id = r.parentId ∧ SameProfile p m ∧ (r.relation = "updates" → p.isLatest = false)
  distinct : ∀ m₀ ∈ db.memories, m₀.IsActive → SameProfile m₀ m →
    normalizedMemory env m₀.content ≠ normalizedMemory env m.content

/-- One step of the memory tables. -/
inductive MemoryStep (env : Env) (db db' : Database) : Prop where
  | keep (h : SameMemories db db')
  | withdraw {ids : List String} {f : Memory → Memory} (h : Withdraws db db' ids f)
  | add {m : Memory} {e : MemoryEmbedding} {links : List MemoryRelation} (h : Adds env db db' m e links)

namespace Memory.Becomes

theorem refl (m : Memory) : m.Becomes m :=
  ⟨rfl, ⟨rfl, rfl⟩, rfl, rfl, rfl, rfl, fun h => h, fun h => h⟩

theorem trans {m₁ m₂ m₃ : Memory} (h : m₁.Becomes m₂) (h' : m₂.Becomes m₃) : m₁.Becomes m₃ where
  id := h'.id.trans h.id
  profile := ⟨h'.profile.1.trans h.profile.1, h'.profile.2.trans h.profile.2⟩
  content := h'.content.trans h.content
  parentMemoryId := h'.parentMemoryId.trans h.parentMemoryId
  rootMemoryId := h'.rootMemoryId.trans h.rootMemoryId
  version := h'.version.trans h.version
  latest := h.latest ∘ h'.latest
  forgotten := h'.forgotten ∘ h.forgotten

end Memory.Becomes

theorem Withdrawal.becomes_ite {f : Memory → Memory} (h : Withdrawal f) (ids : List String) (m : Memory) :
    m.Becomes (if m.id ∈ ids then f m else m) := by
  split
  · exact h.becomes m
  · exact .refl m

theorem Withdraws.becomes {ids : List String} {f : Memory → Memory} (h : Withdraws db db' ids f) {m : Memory}
    (hm : m ∈ db.memories) : ∃ m' ∈ db'.memories, m.Becomes m' :=
  ⟨_, (h.memories _).mpr ⟨m, hm, rfl⟩, h.withdrawal.becomes_ite ids m⟩

/-- No step loses a memory. -/
theorem MemoryStep.becomes (h : MemoryStep env db db') {m : Memory} (hm : m ∈ db.memories) :
    ∃ m' ∈ db'.memories, m.Becomes m' := by
  cases h with
  | keep h => exact ⟨m, h.memories ▸ hm, .refl m⟩
  | withdraw h => exact h.becomes hm
  | add h => exact ⟨m, (h.memories m).mpr (.inl hm), .refl m⟩

-- ---------------------------------------------------------------------------
-- Parents
-- ---------------------------------------------------------------------------

/-- The row of a memory that a new one updates. -/
def retired (now : Time) (m : Memory) : Memory :=
  { m with isLatest := false, isStatic := false, updatedAt := now }

theorem retired_id (now : Time) (m : Memory) : m.id = (retired now m).id := rfl

theorem retired_withdrawal (now : Time) : Withdrawal (retired now) where
  becomes _ := ⟨rfl, ⟨rfl, rfl⟩, rfl, rfl, rfl, rfl, nofun, id⟩
  notLatest _ := rfl
  notStatic _ := rfl

/-- The memories that a new one updates. -/
def updatedIds (parents : List ResolvedParent) : List String :=
  (parents.filter (·.relation = "updates")).map (·.id)

theorem mem_updatedIds {parents : List ResolvedParent} {id : String} :
    id ∈ updatedIds parents ↔ ∃ p ∈ parents, p.relation = "updates" ∧ p.id = id := by
  simp [updatedIds, and_assoc]

/-- The relations between a new memory and its parents that the table admits. -/
def parentLinks (childId : String) (parents : List ResolvedParent) : List MemoryRelation :=
  (parents.filter fun p => p.relation = "updates" ∨ p.relation = "extends" ∨ p.relation = "derives").map
    fun p => ⟨p.id, childId, p.relation⟩

theorem mem_parentLinks {childId : String} {parents : List ResolvedParent} {r : MemoryRelation}
    (h : r ∈ parentLinks childId parents) :
    r.childId = childId ∧ ∃ p ∈ parents, p.id = r.parentId ∧ p.relation = r.relation := by
  obtain ⟨p, hp, rfl⟩ := List.mem_map.mp h
  exact ⟨rfl, p, (List.mem_filter.mp hp).1, rfl, rfl⟩

variable {childId : String} {parent : ResolvedParent} {parents : List ResolvedParent}

theorem addRelation_sameMemories {parentId relation : String} :
    (addRelation db parentId childId relation).memories = db.memories ∧
      (addRelation db parentId childId relation).memoryEmbeddings = db.memoryEmbeddings := by
  unfold addRelation
  split <;> exact ⟨rfl, rfl⟩

theorem linkParent_memories : (linkParent now childId db parent).memories =
    db.memories.update (fun m => m.id ∈ updatedIds [parent]) (retired now) (retired_id now) := by
  unfold linkParent
  by_cases h : parent.relation = "updates"
  · simp only [h, if_true, retireMemory, addRelation_sameMemories.1]
    simp [updatedIds, h]
    rfl
  · simp only [h, if_false, addRelation_sameMemories.1]
    exact (Table.update_eq_self (by simp [updatedIds, h])).symm

theorem linkParent_embeddings : (linkParent now childId db parent).memoryEmbeddings =
    db.memoryEmbeddings.update (fun e => e.memoryId ∈ updatedIds [parent]) deactivated := by
  unfold linkParent
  by_cases h : parent.relation = "updates"
  · simp only [h, if_true, retireMemory, addRelation_sameMemories.2]
    simp [updatedIds, h]
    rfl
  · simp only [h, if_false, addRelation_sameMemories.2]
    exact (Table.update_eq_self (by simp [updatedIds, h])).symm

theorem mem_linkParent_relations {r : MemoryRelation} :
    r ∈ (linkParent now childId db parent).memoryRelations ↔
      r ∈ db.memoryRelations ∨ r ∈ parentLinks childId [parent] := by
  have hretire : (linkParent now childId db parent).memoryRelations =
      (addRelation db parent.id childId parent.relation).memoryRelations := by
    unfold linkParent
    simp only
    split <;> rfl
  rw [hretire]
  unfold addRelation
  split
  · rename_i h
    rw [Table.mem_insertOrIgnore]
    simp [parentLinks, h]
  · rename_i h
    simp [parentLinks, h]

theorem updatedIds_cons (parent : ResolvedParent) (parents : List ResolvedParent) : updatedIds (parent :: parents) = updatedIds [parent] ++ updatedIds parents := by
  simp only [updatedIds, List.filter_cons]
  split <;> simp

theorem parentLinks_cons (parent : ResolvedParent) (parents : List ResolvedParent) : parentLinks childId (parent :: parents) =
    parentLinks childId [parent] ++ parentLinks childId parents := by
  simp only [parentLinks, List.filter_cons]
  split <;> simp

theorem linkParents_memories : (parents.foldl (linkParent now childId) db).memories =
    db.memories.update (fun m => m.id ∈ updatedIds parents) (retired now) (retired_id now) := by
  induction parents generalizing db with
  | nil => exact (Table.update_eq_self (by simp [updatedIds])).symm
  | cons parent rest ih =>
    rw [List.foldl_cons, ih, linkParent_memories]
    refine (Table.update_update (f := retired now) (fun _ => rfl) fun _ => Iff.rfl).trans ?_
    simp only [updatedIds_cons parent rest, List.mem_append]

theorem linkParents_embeddings : (parents.foldl (linkParent now childId) db).memoryEmbeddings =
    db.memoryEmbeddings.update (fun e => e.memoryId ∈ updatedIds parents) deactivated := by
  induction parents generalizing db with
  | nil => exact (Table.update_eq_self (by simp [updatedIds])).symm
  | cons parent rest ih =>
    rw [List.foldl_cons, ih, linkParent_embeddings]
    refine (Table.update_update (f := deactivated) (fun _ => rfl) fun _ => Iff.rfl).trans ?_
    simp only [updatedIds_cons parent rest, List.mem_append]

theorem mem_linkParents_relations {r : MemoryRelation} :
    r ∈ (parents.foldl (linkParent now childId) db).memoryRelations ↔
      r ∈ db.memoryRelations ∨ r ∈ parentLinks childId parents := by
  induction parents generalizing db with
  | nil => simp [parentLinks]
  | cons parent rest ih =>
    rw [List.foldl_cons, ih, mem_linkParent_relations, parentLinks_cons parent rest, List.mem_append,
      or_assoc]

theorem linkParents_idsDrawn : (parents.foldl (linkParent now childId) db).idsDrawn = db.idsDrawn := by
  induction parents generalizing db with
  | nil => rfl
  | cons parent rest ih =>
    rw [List.foldl_cons, ih]
    unfold linkParent addRelation
    simp only
    split <;> split <;> rfl

-- ---------------------------------------------------------------------------
-- Reconciling
-- ---------------------------------------------------------------------------

/-- The memory of a profile that a resolved parent was read from. -/
def ReadFrom (orgId containerTag : String) (p : ResolvedParent) (m : Memory) : Prop :=
  m.id = p.id ∧ m.orgId = orgId ∧ m.containerTag = containerTag ∧ m.rootMemoryId = p.rootMemoryId ∧
    m.version = p.version

theorem mem_resolveMemoryParents {orgId containerTag : String} {parents : List MemoryParent}
    {temporaryIds : List (String × String)} {p : ResolvedParent}
    (h : p ∈ resolveMemoryParents db orgId containerTag parents temporaryIds) :
    ∃ m ∈ db.memories, ReadFrom orgId containerTag p m := by
  obtain ⟨parent, _, hparent⟩ := List.mem_filterMap.mp h
  simp only at hparent
  split at hparent
  · cases hparent
  · rename_i m hfind
    split at hparent
    · rename_i hprofile
      cases hparent
      exact ⟨m, Table.find_mem hfind, rfl, hprofile.1, hprofile.2, rfl, rfl⟩
    · cases hparent

theorem newMemory_descends {batch : Batch} {proposal : MemoryProposal} {parents : List ResolvedParent}
    (id : String)
    (hparents : ∀ p ∈ parents, ∃ m ∈ db.memories, ReadFrom batch.orgId batch.containerTag p m) :
    Descends db (newMemory env now batch proposal parents id) := by
  cases parents with
  | nil => exact .inl ⟨rfl, rfl, rfl⟩
  | cons p rest =>
    obtain ⟨m, hm, hid, horg, hcontainer, hroot, hversion⟩ := hparents p List.mem_cons_self
    refine .inr ⟨m, hm, ⟨horg, hcontainer⟩, ?_, ?_, ?_⟩
    · simp [newMemory, hid]
    · simp [newMemory, hversion]
    · simp [newMemory, hid, hroot]

/-- The content map of the loop knows every active memory of the profile. -/
def Covers (env : Env) (batch : Batch) (s : Reconciliation) : Prop :=
  ∀ m ∈ s.db.memories, m.IsActive → m.orgId = batch.orgId → m.containerTag = batch.containerTag →
    ∃ id, s.exactMemories.lookup (normalizedMemory env m.content) = some id

/-- The row of the vector of a new memory. -/
def newEmbedding (batch : Batch) (proposal : MemoryProposal) (id : String) : MemoryEmbedding :=
  { memoryId := id, modelId := batch.modelId, dimensions := batch.dimensions,
    vector := vectorBytes proposal.vector, active := true }

/-- The memory tables after the parents of a new memory are retired. -/
def retiredParents (now : Time) (db : Database) (parents : List ResolvedParent) : Database :=
  { db with
    memories := db.memories.update (fun m => m.id ∈ updatedIds parents) (retired now) (retired_id now)
    memoryEmbeddings := db.memoryEmbeddings.update (fun e => e.memoryId ∈ updatedIds parents) deactivated }

theorem retiredParents_withdraws (now : Time) (db : Database) (parents : List ResolvedParent) :
    Withdraws db (retiredParents now db parents) (updatedIds parents) (retired now) where
  withdrawal := retired_withdrawal now
  memories m := by
    dsimp only [retiredParents]
    exact Table.mem_update
  embeddings e := by
    dsimp only [retiredParents]
    exact Table.mem_update
  relations := rfl

section Creates

variable {batch : Batch} {proposal : MemoryProposal} {s s' : Reconciliation}
  {parents : List ResolvedParent} {id : String}

theorem Creates.parents_read (h : Creates env now batch proposal s s' parents id) :
    ∀ p ∈ parents, ∃ m ∈ s.db.memories, ReadFrom batch.orgId batch.containerTag p m := by
  rw [h.resolved]
  exact fun p hp => mem_resolveMemoryParents hp

theorem Creates.fresh (h : Creates env now batch proposal s s' parents id) :
    ∀ m ∈ s.db.memories, m.id ≠ id := by
  obtain ⟨memories, _, _, hinsert, _, _⟩ := h.database
  exact Table.insert_fresh hinsert

theorem Creates.idsDrawn (h : Creates env now batch proposal s s' parents id) :
    s'.db.idsDrawn = s.db.idsDrawn + 1 := by
  obtain ⟨_, _, _, _, _, hdb⟩ := h.database
  rw [hdb]
  exact linkParents_idsDrawn

theorem Creates.not_updated (h : Creates env now batch proposal s s' parents id) :
    id ∉ updatedIds parents := by
  intro hmem
  obtain ⟨p, hp, _, hid⟩ := mem_updatedIds.mp hmem
  obtain ⟨m, hm, hread, _⟩ := h.parents_read p hp
  exact h.fresh m hm (hread.trans hid)

/-- A proposal that matched nothing retires the memories it updates and adds its own. -/
theorem Creates.adds (h : Creates env now batch proposal s s' parents id) (hcovers : Covers env batch s) :
    Adds env (retiredParents now s.db parents) s'.db (newMemory env now batch proposal parents id)
      (newEmbedding batch proposal id) (parentLinks id parents) := by
  have hwithdraws := retiredParents_withdraws now s.db parents
  have hread := h.parents_read
  have hfresh := h.fresh
  have hnot := h.not_updated
  obtain ⟨memories, memorySources, memoryEmbeddings, hinsert, hembed, hdb⟩ := h.database
  have hrow : ∀ m ∈ s.db.memories, ∃ m' ∈ (retiredParents now s.db parents).memories, m.Becomes m' ∧
      (m.id ∈ updatedIds parents → m'.isLatest = false) := by
    intro m hm
    refine ⟨_, (hwithdraws.memories _).mpr ⟨m, hm, rfl⟩, hwithdraws.withdrawal.becomes_ite _ m, ?_⟩
    intro hmem
    rw [if_pos hmem]
    rfl
  constructor
  case fresh =>
    intro m₀ hm₀
    obtain ⟨m, hm, rfl⟩ := (hwithdraws.memories m₀).mp hm₀
    rw [(hwithdraws.withdrawal.becomes_ite _ m).id]
    exact hfresh m hm
  case memories =>
    intro m'
    rw [hdb]
    simp only [linkParents_memories, Table.mem_update, Table.mem_insert hinsert, hwithdraws.memories]
    constructor
    · rintro ⟨r, hr | rfl, rfl⟩
      · exact .inl ⟨r, hr, rfl⟩
      · exact .inr (if_neg hnot)
    · rintro (⟨r, hr, rfl⟩ | rfl)
      · exact ⟨r, .inl hr, rfl⟩
      · exact ⟨_, .inr rfl, (if_neg hnot).symm⟩
  case embeddings =>
    intro e'
    rw [hdb]
    simp only [Table.mem_insert hembed, linkParents_embeddings]
    rfl
  case relations =>
    intro r
    rw [hdb]
    exact mem_linkParents_relations
  case isActive => exact ⟨rfl, rfl⟩
  case embedded => exact ⟨rfl, rfl⟩
  case descends =>
    apply newMemory_descends
    intro p hp
    obtain ⟨m, hm, hid, horg, hcontainer, hroot, hversion⟩ := hread p hp
    obtain ⟨m', hm', hbecomes, _⟩ := hrow m hm
    exact ⟨m', hm', hbecomes.id.trans hid, hbecomes.profile.1.trans horg,
      hbecomes.profile.2.trans hcontainer, hbecomes.rootMemoryId.trans hroot,
      hbecomes.version.trans hversion⟩
  case linked =>
    intro r hr
    obtain ⟨hchild, p, hp, hparent, hrelation⟩ := mem_parentLinks hr
    obtain ⟨m, hm, hid, horg, hcontainer, _⟩ := hread p hp
    obtain ⟨m', hm', hbecomes, hretired⟩ := hrow m hm
    refine ⟨hchild, m', hm', hbecomes.id.trans (hid.trans hparent),
      ⟨hbecomes.profile.1.trans horg, hbecomes.profile.2.trans hcontainer⟩, fun hupdates => hretired ?_⟩
    exact mem_updatedIds.mpr ⟨p, hp, hrelation.trans hupdates, hid.symm⟩
  case distinct =>
    intro m₀ hm₀ hactive hprofile hsame
    obtain ⟨m, hm, rfl⟩ := (hwithdraws.memories m₀).mp hm₀
    split at hactive
    · cases hactive.1
    · rename_i hkept
      rw [if_neg hkept] at hprofile hsame
      obtain ⟨id', hlookup⟩ := hcovers m hm hactive hprofile.1 hprofile.2
      rw [hsame, show (newMemory env now batch proposal parents id).content = proposal.content from rfl,
        h.unmatched] at hlookup
      cases hlookup

theorem Creates.covers (h : Creates env now batch proposal s s' parents id) (hcovers : Covers env batch s) :
    Covers env batch s' := by
  have hadds := h.adds hcovers
  have hwithdraws := retiredParents_withdraws now s.db parents
  intro m hm hactive horg hcontainer
  rw [h.exactMemories, List.lookup_cons]
  split
  · exact ⟨id, rfl⟩
  · rename_i hother
    rcases (hadds.memories m).mp hm with hm | rfl
    · obtain ⟨m₀, hm₀, rfl⟩ := (hwithdraws.memories m).mp hm
      have hbecomes := hwithdraws.withdrawal.becomes_ite (updatedIds parents) m₀
      rw [hbecomes.content]
      split at hactive
      · cases hactive.1
      · rename_i hkept
        rw [if_neg hkept] at horg hcontainer
        exact hcovers m₀ hm₀ hactive horg hcontainer
    · simp [newMemory] at hother

end Creates

theorem matched_sameMemories (batch : Batch) (proposal : MemoryProposal) (id : String) (s : Reconciliation) :
    SameMemories s.db (matched batch proposal id s).db := ⟨rfl, rfl, rfl⟩

theorem reconcileProposals_steps {batch : Batch} {proposals : List MemoryProposal} {s s' : Reconciliation}
    (h : reconcileProposals env now batch proposals s = .ok s') (hcovers : Covers env batch s) :
    Relation.ReflTransGen (MemoryStep env) s.db s'.db := by
  induction proposals generalizing s with
  | nil =>
    cases h
    exact .refl
  | cons proposal rest ih =>
    rw [reconcileProposals] at h
    split at h
    · cases h
    · rename_i t hone
      rcases reconcileProposal_ok hone with ⟨id, _, rfl⟩ | ⟨parents, id, hcreates⟩
      · exact .head (.keep (matched_sameMemories batch proposal id s)) (ih h hcovers)
      · apply Relation.ReflTransGen.head (.withdraw (retiredParents_withdraws now s.db parents))
        apply Relation.ReflTransGen.head (.add (hcreates.adds hcovers))
        exact ih h (hcreates.covers hcovers)

/-! ## The content map -/

/-- One turn of the fold that makes the content map. -/
def keepFirst (env : Env) (memories : List (String × String)) (m : Memory) : List (String × String) :=
  match memories.lookup (normalizedMemory env m.content) with
  | some _ => memories
  | none => memories ++ [(normalizedMemory env m.content, m.id)]

theorem lookup_keepFirst {memories : List (String × String)} {m : Memory} {content : String} :
    (keepFirst env memories m).lookup content =
      (memories.lookup content).or
        (if content = normalizedMemory env m.content then some m.id else none) := by
  unfold keepFirst
  split
  · rename_i id hsome
    by_cases h : content = normalizedMemory env m.content
    · subst h
      simp [hsome]
    · simp [h]
  · rw [List.lookup_append]
    simp [List.lookup_cons]
    split <;> simp_all

theorem lookup_foldl_keepFirst {rows : List Memory} {memories : List (String × String)} {content : String} :
    (rows.foldl (keepFirst env) memories).lookup content =
      (memories.lookup content).or
        ((rows.find? fun m => content = normalizedMemory env m.content).map (·.id)) := by
  induction rows generalizing memories with
  | nil => simp
  | cons m rest ih =>
    rw [List.foldl_cons, ih, lookup_keepFirst, Option.or_assoc, List.find?_cons]
    by_cases h : content = normalizedMemory env m.content <;> simp [h]

/-- The rows that the content map is made from, in query order. -/
def activeRows (db : Database) (orgId containerTag : String) : List Memory :=
  (db.memories.rows.filter fun m =>
    m.orgId = orgId ∧ m.containerTag = containerTag ∧ m.isLatest ∧ ¬ m.isForgotten).insertionSort
      newerMemory

theorem mem_activeRows {orgId containerTag : String} {m : Memory} :
    m ∈ activeRows db orgId containerTag ↔
      m ∈ db.memories ∧ m.orgId = orgId ∧ m.containerTag = containerTag ∧ m.IsActive := by
  unfold activeRows
  rw [List.mem_insertionSort, List.mem_filter]
  simp [Memory.IsActive]

theorem lookup_activeMemoryIdsByContent {orgId containerTag content : String} :
    (activeMemoryIdsByContent env db orgId containerTag).lookup content =
      ((activeRows db orgId containerTag).find? fun m => content = normalizedMemory env m.content).map
        (·.id) := by
  have hfold : activeMemoryIdsByContent env db orgId containerTag =
      (activeRows db orgId containerTag).foldl (keepFirst env) [] := rfl
  rw [hfold, lookup_foldl_keepFirst, List.lookup_nil, Option.none_or]

/-- The content map names active memories of the profile by their content. -/
theorem activeMemoryIdsByContent_sound {orgId containerTag content id : String}
    (h : (activeMemoryIdsByContent env db orgId containerTag).lookup content = some id) :
    ∃ m ∈ db.memories, m.id = id ∧ m.orgId = orgId ∧ m.containerTag = containerTag ∧ m.IsActive ∧
      normalizedMemory env m.content = content := by
  rw [lookup_activeMemoryIdsByContent] at h
  obtain ⟨m, hfind, rfl⟩ := Option.map_eq_some_iff.mp h
  obtain ⟨hm, horg, hcontainer, hactive⟩ := mem_activeRows.mp (List.mem_of_find?_eq_some hfind)
  have hcontent := List.find?_some hfind
  exact ⟨m, hm, rfl, horg, hcontainer, hactive, (of_decide_eq_true hcontent).symm⟩

theorem covers_start (env : Env) (batch : Batch) (db : Database) :
    Covers env batch (reconciliationStart env batch db) := by
  intro m hm hactive horg hcontainer
  have hrow : m ∈ activeRows db batch.orgId batch.containerTag :=
    mem_activeRows.mpr ⟨hm, horg, hcontainer, hactive⟩
  cases hfind : (activeRows db batch.orgId batch.containerTag).find?
      fun m' => normalizedMemory env m.content = normalizedMemory env m'.content with
  | none =>
    have hne := List.find?_eq_none.mp hfind m hrow
    simp at hne
  | some first =>
    refine ⟨first.id, ?_⟩
    dsimp only [reconciliationStart]
    rw [lookup_activeMemoryIdsByContent, hfind, Option.map_some]

-- ---------------------------------------------------------------------------
-- Calls
-- ---------------------------------------------------------------------------

theorem finishReconciliation_sameMemories {jobId documentId : String} {revision : Nat}
    (h : finishReconciliation db jobId documentId revision = .ok db') : SameMemories db db' := by
  rw [(finishReconciliation_ok h).2]
  exact ⟨rfl, rfl, rfl⟩

theorem reconcileMemoriesFor_steps {batch : Batch} {expectedRevision : Option Nat}
    {completionJobId : Option String} {proposals : List MemoryProposal} {records : List MemoryRecord}
    (h : reconcileMemoriesFor env now batch expectedRevision completionJobId proposals db =
      .ok (records, db')) : Relation.ReflTransGen (MemoryStep env) db db' := by
  obtain ⟨_, _, _, _, s, hloop, _, hfinish⟩ := reconcileMemoriesFor_ok h
  have hsteps := reconcileProposals_steps hloop (covers_start env batch db)
  rcases hfinish with ⟨_, rfl⟩ | ⟨jobId, _, hfinish⟩
  · exact hsteps
  · exact hsteps.tail (.keep (finishReconciliation_sameMemories hfinish))

/-- The row of a forgotten memory. -/
def forgotten (env : Env) (now : Time) (reason : Option String) (m : Memory) : Memory :=
  { m with
    isForgotten := true
    isLatest := false
    isStatic := false
    forgetAfter := some (env.timestamp now)
    forgetReason := some (reason.getD "user_requested")
    updatedAt := now }

theorem forgotten_withdrawal (env : Env) (now : Time) (reason : Option String) :
    Withdrawal (forgotten env now reason) where
  becomes _ := ⟨rfl, ⟨rfl, rfl⟩, rfl, rfl, rfl, rfl, nofun, fun _ => rfl⟩
  notLatest _ := rfl
  notStatic _ := rfl

theorem forgetMemoryFor_withdraws {orgId : String} {id content : Option String} {containerTag : String}
    {reason : Option String} {memoryId : String}
    (h : forgetMemoryFor env now orgId id content containerTag reason db = .ok (memoryId, db')) :
    Withdraws db db' [memoryId] (forgotten env now reason) := by
  obtain ⟨_, _, _, _, rfl⟩ := forgetMemoryFor_ok h
  constructor
  case withdrawal => exact forgotten_withdrawal env now reason
  case memories =>
    intro m
    simp only [Table.mem_update, List.mem_singleton]
    rfl
  case embeddings =>
    intro e
    simp only [Table.mem_update, List.mem_singleton]
    rfl
  case relations => rfl

-- ---------------------------------------------------------------------------
-- The machine
-- ---------------------------------------------------------------------------

/-- The calls that write memories, and anything else that happens to the database. -/
inductive MemoryCall where
  | reconcile (batch : Batch) (expectedRevision : Option Nat) (completionJobId : Option String)
      (proposals : List MemoryProposal)
  | forget (orgId : String) (id content : Option String) (containerTag : String) (reason : Option String)
  | elsewhere (db : Database)

instance (db db' : Database) : Decidable (SameMemories db db') :=
  decidable_of_iff
    (db'.memories = db.memories ∧ db'.memoryEmbeddings = db.memoryEmbeddings ∧
      db'.memoryRelations = db.memoryRelations)
    ⟨fun ⟨h, h', h''⟩ => ⟨h, h', h''⟩, fun h => ⟨h.memories, h.embeddings, h.relations⟩⟩

/-- The memory tables under calls that succeed, at any time and in any order. -/
def memoryMachine (env : Env) : Machine Database (Time × MemoryCall) where
  init db := db.memories = ∅ ∧ db.memoryEmbeddings = ∅ ∧ db.memoryRelations = ∅
  step db event :=
    match event.2 with
    | .reconcile batch expectedRevision completionJobId proposals =>
      (reconcileMemoriesFor env event.1 batch expectedRevision completionJobId proposals
        db).toOption.map (·.2)
    | .forget orgId id content containerTag reason =>
      (forgetMemoryFor env event.1 orgId id content containerTag reason db).toOption.map (·.2)
    | .elsewhere db' => if SameMemories db db' then some db' else none

theorem eq_ok_of_toOption {α : Type} {r : Except StorageError (α × Database)}
    (h : r.toOption.map (·.2) = some db) : ∃ a, r = .ok (a, db) := by
  obtain ⟨⟨a, db⟩, hr, rfl⟩ := Option.map_eq_some_iff.mp h
  exact ⟨a, Loop.ok_of_mem_toOption hr⟩

theorem memoryMachine_steps {event : Time × MemoryCall}
    (h : (memoryMachine env).step db event = some db') :
    Relation.ReflTransGen (MemoryStep env) db db' := by
  obtain ⟨now, call⟩ := event
  cases call with
  | reconcile batch expectedRevision completionJobId proposals =>
    obtain ⟨records, hok⟩ := eq_ok_of_toOption h
    exact reconcileMemoriesFor_steps hok
  | forget orgId id content containerTag reason =>
    obtain ⟨memoryId, hok⟩ := eq_ok_of_toOption h
    exact .single (.withdraw (forgetMemoryFor_withdraws hok))
  | elsewhere other =>
    simp only [memoryMachine] at h
    split at h
    · rename_i hsame
      cases h
      exact .single (.keep hsame)
    · cases h

theorem steps_invariant {I : Database → Prop} (hstep : ∀ db db', I db → MemoryStep env db db' → I db')
    (hI : I db) (h : Relation.ReflTransGen (MemoryStep env) db db') : I db' := by
  induction h with
  | refl => exact hI
  | tail _ hone ih => exact hstep _ _ ih hone

/-- What holds of empty memory tables and is preserved by every memory step holds of every store. -/
theorem memory_invariant {I : Database → Prop} (hinit : ∀ db, (memoryMachine env).init db → I db)
    (hstep : ∀ db db', I db → MemoryStep env db db' → I db') (h : (memoryMachine env).Reachable db) :
    I db := by
  refine h.invariant (I := I) hinit fun db event db' _ hI hs => ?_
  exact steps_invariant hstep hI (memoryMachine_steps hs)

/-! ## The calls of the store -/

namespace SameMemories

theorem refl (db : Database) : SameMemories db db := ⟨rfl, rfl, rfl⟩

theorem insertJob {documentId : String} {kind : JobKind} {revision : Nat}
    (h : db.insertJob env now documentId kind revision = .ok db') : SameMemories db db' := by
  obtain ⟨_, _, _, rfl⟩ := insertJob_ok h
  exact ⟨rfl, rfl, rfl⟩

theorem enqueueUnlessActive {id : String} {enqueued : Bool}
    (h : Storage.enqueueUnlessActive env now db id = .ok (enqueued, db')) : SameMemories db db' := by
  rcases enqueueUnlessActive_ok h with ⟨_, rfl⟩ | ⟨_, _, _, _, hinsert⟩
  · exact .refl _
  · exact insertJob hinsert

theorem upsertDocumentFor {orgId : String} {input : UpsertDocument} {result : UpsertResult}
    (h : Storage.upsertDocumentFor env now orgId input db = .ok (result, db')) : SameMemories db db' := by
  obtain ⟨input, hash, ⟨existing, _, happly⟩ | hnew⟩ := upsertDocumentFor_ok h
  · rcases applyExisting_ok happly with rfl | ⟨metadata, rfl⟩ | ⟨_, hrequeue⟩
    · exact .refl _
    · exact ⟨rfl, rfl, rfl⟩
    · obtain ⟨_, dbu, _, hupdate, henqueue⟩ := requeue_ok hrequeue
      obtain rfl := updateFull_ok hupdate
      have hsame := enqueueUnlessActive henqueue
      exact ⟨hsame.memories, hsame.embeddings, hsame.relations⟩
  · obtain ⟨_, _, _, _, _, _, _, henqueue⟩ := insertNew_ok hnew
    have hsame := enqueueUnlessActive henqueue
    exact ⟨hsame.memories, hsame.embeddings, hsame.relations⟩

theorem publishes {k : ClaimedJob} {chunks : List String} {schedule : Bool}
    (h : Publishes env now k chunks schedule db db') : SameMemories db db' :=
  ⟨h.document.2.1, h.document.2.2.2.2, h.document.2.2.2.1⟩

end SameMemories

/-- Only reconciling and forgetting touch the memory tables. -/
theorem Call.run_memories (call : Call) : SameMemories db (call.run env now db).2 ∨
    (∃ event, (memoryMachine env).step db event = some (call.run env now db).2) := by
  have heffect := call.effect env now db
  generalize call.run env now db = r at heffect ⊢
  cases heffect with
  | failed | nothing => exact .inl (.refl db)
  | upserted hr => exact .inl (.upsertDocumentFor hr)
  | claimed hr =>
    obtain ⟨_, _, _, _, _, _, _, _, _, rfl⟩ := claimJob_some hr
    exact .inl ⟨rfl, rfl, rfl⟩
  | staged hr =>
    obtain ⟨_, _, _, _, rfl⟩ := markJobStage_ok hr
    exact .inl ⟨rfl, rfl, rfl⟩
  | published _ _ _ hr => exact .inl (.publishes (publishJob_ok hr))
  | failedJob | deletedEmpty | deleted => exact .inl ⟨rfl, rfl, rfl⟩
  | claimedMemory hr =>
    obtain ⟨_, _, _, _, _, _, _, _, _, _, _, rfl⟩ := claimMemoryJob_some hr
    exact .inl ⟨rfl, rfl, rfl⟩
  | @cached job result =>
    rcases cacheMemoryExtraction_cases job result db with ⟨_, heq⟩ | ⟨_, heq⟩
    · rw [heq]
      exact .inl ⟨rfl, rfl, rfl⟩
    · rw [heq]
      exact .inl ⟨rfl, rfl, rfl⟩
  | completedMemory hr =>
    rcases completeMemoryJob_ok hr with ⟨_, rfl⟩ | ⟨_, _, rfl⟩
    · exact .inl ⟨rfl, rfl, rfl⟩
    · exact .inl ⟨rfl, rfl, rfl⟩
  | retried hr =>
    rcases retryMemoryJob_ok hr with ⟨_, rfl⟩ | ⟨_, _, _, ⟨_, rfl⟩ | rfl⟩
    · exact .inl ⟨rfl, rfl, rfl⟩
    · exact .inl ⟨rfl, rfl, rfl⟩
    · exact .inl ⟨rfl, rfl, rfl⟩
  | @reconciled batch expectedRevision completion proposals _ _ hr =>
    refine .inr ⟨(now, .reconcile batch expectedRevision (completion.map (·.id)) proposals), ?_⟩
    simp only [memoryMachine, hr, Except.toOption, Option.map_some]
  | @forgot orgId id content containerTag _ reason _ hr =>
    refine .inr ⟨(now, .forget orgId id content containerTag reason), ?_⟩
    simp only [memoryMachine, hr, Except.toOption, Option.map_some]
  | opened hr =>
    obtain ⟨_, _, _, rfl⟩ := openStorage_ok hr
    exact .inl ⟨rfl, rfl, rfl⟩

/-- The databases of the store are among the states of the memory machine. -/
theorem memoryMachine_of_machine {s : System} (h : (machine env).Reachable s) :
    (memoryMachine env).Reachable s.db := by
  refine h.simulate (N := memoryMachine env) (f := System.db) ?_ ?_
  · rintro s ⟨organizations, rfl⟩
    exact ⟨rfl, rfl, rfl⟩
  · rintro s ⟨now, call⟩ s' hstep
    obtain ⟨_, rfl⟩ := machine_step.mp hstep
    rw [System.after_db]
    rcases call.run_memories with hsame | ⟨event, hevent⟩
    · exact .inr ⟨(now, .elsewhere _), if_pos hsame⟩
    · exact .inr ⟨event, hevent⟩

/-- No run loses a memory. -/
theorem memory_becomes_of_run {s s' : System} (h : (machine env).Run s s') {m : Memory} (hm : m ∈ s.db.memories) :
    ∃ m' ∈ s'.db.memories, m.Becomes m' := by
  induction h with
  | refl => exact ⟨m, hm, .refl m⟩
  | @step t _ event _ hstep ih =>
    have hkeeps (db db' : Database) (hkept : ∃ m' ∈ db.memories, m.Becomes m') (hone : MemoryStep env db db') :
        ∃ m' ∈ db'.memories, m.Becomes m' := by
      obtain ⟨m', hm', hbecomes⟩ := hkept
      obtain ⟨m'', hm'', hbecomes'⟩ := hone.becomes hm'
      exact ⟨m'', hm'', hbecomes.trans hbecomes'⟩
    obtain ⟨_, rfl⟩ := machine_step.mp hstep
    rw [System.after_db]
    rcases event.2.run_memories with hsame | ⟨event', hevent⟩
    · exact hkeeps _ _ ih (.keep hsame)
    · exact steps_invariant hkeeps ih (memoryMachine_steps hevent)

/-! ## Concrete runs -/

/-- A document to extract memories from. -/
def note : Document :=
  { id := "note"
    orgId := "org"
    content := "a fact"
    contentHash := "a fact"
    customId := none
    status := .done
    containerTags := ["tag"]
    entityContext := none
    metadata := []
    taskType := "memory"
    filepath := none
    filterByMetadata := []
    dreaming := "instant"
    revision := 1 }

/-- The store that holds one document and no memory. -/
def noteStore : Database := { emptySystem.db with documents := ⟨[note], by simp⟩ }

def noteBatch : Batch := ⟨"org", "note", "tag", "model", 1⟩

/-- A proposal with the only unit vector of `unaryEnv`. -/
def proposalOf (temporaryId content : String) (parents : List MemoryParent) (forgetAfter : Option String) :
    MemoryProposal :=
  { temporaryId, content, parents, forgetAfter
    isInferred := false
    isStatic := false
    metadata := []
    forgetReason := none
    vector := [0x3f800000] }

/-- The store of one document after some calls. -/
def memoriesAfter (calls : List (Time × MemoryCall)) : Option Database :=
  (memoryMachine unaryEnv).replay noteStore calls

theorem memoriesAfter_reachable {calls : List (Time × MemoryCall)} (h : memoriesAfter calls = some db) :
    (memoryMachine unaryEnv).Reachable db :=
  have hempty : (memoryMachine unaryEnv).Reachable noteStore := .start ⟨rfl, rfl, rfl⟩
  hempty.replay h

/-- A memory, and a later one of the same batch that updates it. -/
def updatedOnce : Option Database :=
  memoriesAfter [(0, .reconcile noteBatch none none
    [proposalOf "a" "Tea." [] none, proposalOf "b" "Green tea!" [⟨"a", "updates"⟩] none])]

end Storage
