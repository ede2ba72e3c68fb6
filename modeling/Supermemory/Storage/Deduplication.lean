-- SUMMARY: Reconciling a batch with and without the proposals that repeat an earlier one, side by side.
import Supermemory.Storage.Idempotence

/-!
# Dropped repetitions

A proposal that repeats the content of an earlier one of its batch writes nothing. It does
name a memory: its temporary identifier stands for the memory of the earlier proposal. A
batch without the repetitions writes the same, unless a later proposal uses such a name.
-/

namespace Storage

variable {env : Env} {now : Time} {batch : Batch} {db db' : Database}

-- ---------------------------------------------------------------------------
-- Batches without repetitions
-- ---------------------------------------------------------------------------

/-- The proposals that repeat neither one of the contents nor an earlier proposal. -/
def dropRepeats (env : Env) : List String → List MemoryProposal → List MemoryProposal
  | _, [] => []
  | seen, proposal :: rest =>
    let content := normalizedMemory env proposal.content
    if content ∈ seen then dropRepeats env seen rest
    else proposal :: dropRepeats env (content :: seen) rest

/-- The temporary identifiers of the proposals that `dropRepeats` drops. -/
def repeatedNames (env : Env) : List String → List MemoryProposal → List String
  | _, [] => []
  | seen, proposal :: rest =>
    let content := normalizedMemory env proposal.content
    if content ∈ seen then proposal.temporaryId :: repeatedNames env seen rest
    else repeatedNames env (content :: seen) rest

/-- The names without some temporary identifiers. -/
def Names.without (n : Names) (dropped : List String) : Names :=
  { n with temporaryIds := n.temporaryIds.filter fun entry => entry.1 ∉ dropped }

/-- The memories that the parents of a proposal name, each with its relation. -/
def Names.resolves (n : Names) (proposal : MemoryProposal) : List (String × String) :=
  (proposal.parents.map fun parent =>
    ((n.temporaryIds.lookup parent.memoryId).getD parent.memoryId, parent.relation)).filter (·.1 ∈ n.present)

/-- The first memory is the same, and so are the memories with their relations. -/
def SameLineage (parents parents' : List (String × String)) : Prop :=
  parents.head?.map (·.1) = parents'.head?.map (·.1) ∧ (∀ p ∈ parents, p ∈ parents') ∧ ∀ p ∈ parents', p ∈ parents

instance (parents parents' : List (String × String)) : Decidable (SameLineage parents parents') :=
  inferInstanceAs (Decidable (_ ∧ _))

/-- Every new memory that is not dropped has the same parents when the temporary identifiers of the
    dropped proposals before it stand for nothing. -/
def LineageKept (env : Env) : List String → List String → Names → List MemoryProposal → Prop
  | _, _, _, [] => True
  | seen, dropped, n, proposal :: rest =>
    let content := normalizedMemory env proposal.content
    if content ∈ seen then LineageKept env seen (proposal.temporaryId :: dropped) (n.next env proposal) rest
    else
      ((n.planned env proposal).isNew = true →
        SameLineage (n.resolves proposal) ((n.without dropped).resolves proposal)) ∧
      LineageKept env (content :: seen) dropped (n.next env proposal) rest

instance decidableLineageKept (env : Env) : ∀ (seen dropped : List String) (n : Names) (proposals : List MemoryProposal),
    Decidable (LineageKept env seen dropped n proposals)
  | _, _, _, [] => isTrue trivial
  | seen, dropped, n, proposal :: rest =>
    have := decidableLineageKept env seen (proposal.temporaryId :: dropped) (n.next env proposal) rest
    have := decidableLineageKept env (normalizedMemory env proposal.content :: seen) dropped (n.next env proposal) rest
    inferInstanceAs (Decidable
      (if normalizedMemory env proposal.content ∈ seen then
        LineageKept env seen (proposal.temporaryId :: dropped) (n.next env proposal) rest
      else
        ((n.planned env proposal).isNew = true →
          SameLineage (n.resolves proposal) ((n.without dropped).resolves proposal)) ∧
        LineageKept env (normalizedMemory env proposal.content :: seen) dropped (n.next env proposal) rest))

/-! ## Names -/

section Names

variable {n : Names} {proposal : MemoryProposal} {dropped : List String}

theorem Names.next_temporaryIds : (n.next env proposal).temporaryIds =
    (proposal.temporaryId, (n.planned env proposal).id) :: n.temporaryIds := by
  unfold Names.next
  simp only
  split <;> rfl

/-- A content that is known stands for the memory that it stood for. -/
theorem Names.next_known {id : String} (h : n.exactMemories.lookup (normalizedMemory env proposal.content) = some id) :
    (n.next env proposal).exactMemories = n.exactMemories := by
  simp [Names.next, Names.planned, h]

theorem Names.planned_isNew : (n.planned env proposal).isNew = true ↔
    n.exactMemories.lookup (normalizedMemory env proposal.content) = none := by
  unfold Names.planned
  split
  · rename_i hknown
    simp [hknown]
  · rename_i hunknown
    simp [hunknown]

theorem Names.without_planned : ((n.without dropped).planned env proposal).id = (n.planned env proposal).id ∧
    ((n.without dropped).planned env proposal).isNew = (n.planned env proposal).isNew := by
  unfold Names.planned Names.without
  simp only
  split <;> exact ⟨rfl, rfl⟩

theorem Names.without_nil : n.without [] = n := by
  simp [Names.without]

theorem Names.without_next (h : proposal.temporaryId ∉ dropped) :
    (n.without dropped).next env proposal = (n.next env proposal).without dropped := by
  have hplanned : ((n.without dropped).planned env proposal).id = (n.planned env proposal).id ∧
      ((n.without dropped).planned env proposal).isNew = (n.planned env proposal).isNew := Names.without_planned
  obtain ⟨hid, hnew⟩ := hplanned
  unfold Names.next
  simp only [hid, hnew]
  split <;> simp [Names.without, h]

/-- A name that is dropped as soon as it is given stands for nothing. -/
theorem Names.next_without (hold : (n.planned env proposal).isNew = false)
    (hfresh : proposal.temporaryId ∉ n.temporaryIds.map (·.1)) :
    (n.next env proposal).without (proposal.temporaryId :: dropped) = n.without dropped := by
  have hkept : (n.temporaryIds.filter fun entry => entry.1 ∉ proposal.temporaryId :: dropped) =
      n.temporaryIds.filter fun entry => entry.1 ∉ dropped := by
    apply List.filter_congr
    intro entry hentry
    have hne : entry.1 ≠ proposal.temporaryId := fun heq => hfresh (heq ▸ List.mem_map_of_mem hentry)
    simp [hne]
  unfold Names.next Names.without
  simp only [hold]
  rw [if_neg Bool.false_ne_true, List.filter_cons_of_neg (by simp), hkept]

theorem Names.without_lookup {name : String} (h : name ∉ dropped) :
    (n.without dropped).temporaryIds.lookup name = n.temporaryIds.lookup name := by
  unfold Names.without
  simp only
  induction n.temporaryIds with
  | nil => rfl
  | cons entry rest ih =>
    rw [List.lookup_cons]
    by_cases hname : name = entry.1
    · rw [List.filter_cons_of_pos (by simpa [← hname] using h), List.lookup_cons]
      simp [hname]
    · have hother : (name == entry.1) = false := beq_false_of_ne hname
      rw [hother, ← ih, List.filter_cons]
      split
      · rw [List.lookup_cons, hother]
      · rfl

/-- Only the parents that have dropped names are resolved otherwise. -/
theorem Names.without_resolves (h : ∀ parent ∈ proposal.parents, parent.memoryId ∉ dropped) :
    (n.without dropped).resolves proposal = n.resolves proposal := by
  have hpairs : (proposal.parents.map fun parent =>
      (((n.without dropped).temporaryIds.lookup parent.memoryId).getD parent.memoryId, parent.relation)) =
      proposal.parents.map fun parent =>
        ((n.temporaryIds.lookup parent.memoryId).getD parent.memoryId, parent.relation) := by
    apply List.map_congr_left
    intro parent hparent
    rw [Names.without_lookup (h parent hparent)]
  unfold Names.resolves
  rw [hpairs]
  rfl

end Names

/-- Where no parent has the name of a dropped proposal, every new memory keeps its parents. -/
theorem lineageKept_of_unnamed {seen dropped : List String} {n : Names} {proposals : List MemoryProposal}
    (h : ∀ proposal ∈ dropRepeats env seen proposals, ∀ parent ∈ proposal.parents,
      parent.memoryId ∉ dropped ∧ parent.memoryId ∉ repeatedNames env seen proposals) :
    LineageKept env seen dropped n proposals := by
  induction proposals generalizing seen dropped n with
  | nil => trivial
  | cons proposal rest ih =>
    rw [dropRepeats, repeatedNames] at h
    rw [LineageKept]
    by_cases hseen : normalizedMemory env proposal.content ∈ seen
    · simp only [if_pos hseen] at h ⊢
      apply ih
      intro p hp parent hparent
      obtain ⟨hdropped, hrepeated⟩ := h p hp parent hparent
      rw [List.mem_cons, not_or] at hrepeated
      exact ⟨List.not_mem_cons_of_ne_of_not_mem hrepeated.1 hdropped, hrepeated.2⟩
    · simp only [if_neg hseen] at h ⊢
      refine ⟨fun _ => ?_, ih fun p hp => h p (List.mem_cons_of_mem _ hp)⟩
      rw [Names.without_resolves fun parent hparent => (h proposal List.mem_cons_self parent hparent).1]
      exact ⟨rfl, fun _ hp => hp, fun _ hp => hp⟩

-- ---------------------------------------------------------------------------
-- Parents
-- ---------------------------------------------------------------------------

/-- A parent with the memory it was resolved to. -/
def ResolvedParent.pair (parent : ResolvedParent) : String × String := (parent.id, parent.relation)

/-- What the loop resolves is what the names of the batch say. -/
theorem Progress.resolves {past : List Planned} {n : Names} {s : Reconciliation}
    (h : Progress env now batch db past n s) (proposal : MemoryProposal) :
    (resolveMemoryParents s.db batch.orgId batch.containerTag proposal.parents s.temporaryIds).map ResolvedParent.pair =
      n.resolves proposal := by
  unfold resolveMemoryParents Names.resolves
  rw [h.temporaryIds]
  induction proposal.parents with
  | nil => rfl
  | cons parent rest ih =>
    rw [List.map_cons, List.filterMap_cons]
    generalize (n.temporaryIds.lookup parent.memoryId).getD parent.memoryId = id
    simp only
    by_cases hpresent : id ∈ n.present
    · obtain ⟨m, hm, hid, hprofile⟩ := (h.present id).mp hpresent
      rw [List.filter_cons_of_pos (by simpa using hpresent), ← ih, Table.find_eq_some.mpr ⟨hm, hid⟩]
      simp [hprofile, ResolvedParent.pair, hid]
    · rw [List.filter_cons_of_neg (by simpa using hpresent), ← ih]
      cases hfind : s.db.memories.find id with
      | none => rfl
      | some m =>
        obtain ⟨hm, hid⟩ := Table.find_eq_some.mp hfind
        have hprofile : ¬ (m.orgId = batch.orgId ∧ m.containerTag = batch.containerTag) := fun hprofile =>
          hpresent ((h.present id).mpr ⟨m, hm, hid, hprofile⟩)
        simp [hprofile]

/-- The memories and the relations are the same. -/
structure SameRows (db db' : Database) : Prop where
  memories : ∀ m, m ∈ db'.memories ↔ m ∈ db.memories
  relations : ∀ r, r ∈ db'.memoryRelations ↔ r ∈ db.memoryRelations

section Lineage

variable {parents parents' : List ResolvedParent} {proposal : MemoryProposal} {s s' u u' : Reconciliation} {id : String}

theorem SameLineage.mem_iff (h : SameLineage (parents.map ResolvedParent.pair) (parents'.map ResolvedParent.pair))
    {memory relation : String} : (∃ p ∈ parents, p.id = memory ∧ p.relation = relation) ↔
      ∃ p ∈ parents', p.id = memory ∧ p.relation = relation := by
  obtain ⟨_, hleft, hright⟩ := h
  constructor
  · rintro ⟨p, hp, rfl, rfl⟩
    obtain ⟨q, hq, hpair⟩ := List.mem_map.mp (hleft _ (List.mem_map_of_mem hp))
    exact ⟨q, hq, congrArg Prod.fst hpair, congrArg Prod.snd hpair⟩
  · rintro ⟨p, hp, rfl, rfl⟩
    obtain ⟨q, hq, hpair⟩ := List.mem_map.mp (hright _ (List.mem_map_of_mem hp))
    exact ⟨q, hq, congrArg Prod.fst hpair, congrArg Prod.snd hpair⟩

theorem SameLineage.updatedIds (h : SameLineage (parents.map ResolvedParent.pair) (parents'.map ResolvedParent.pair))
    {memory : String} : memory ∈ Storage.updatedIds parents ↔ memory ∈ Storage.updatedIds parents' := by
  simp only [mem_updatedIds, and_comm (b := _ = memory)]
  exact h.mem_iff

theorem SameLineage.links (h : SameLineage (parents.map ResolvedParent.pair) (parents'.map ResolvedParent.pair))
    {r : MemoryRelation} : r ∈ parentLinks id parents ↔ r ∈ parentLinks id parents' := by
  have hone {ps : List ResolvedParent} : r ∈ parentLinks id ps ↔
      (∃ p ∈ ps, p.id = r.parentId ∧ p.relation = r.relation) ∧ r.childId = id ∧
        (r.relation = "updates" ∨ r.relation = "extends" ∨ r.relation = "derives") := by
    obtain ⟨parentId, childId, relation⟩ := r
    simp only [parentLinks, List.mem_map, List.mem_filter, decide_eq_true_eq, MemoryRelation.mk.injEq]
    constructor
    · rintro ⟨p, ⟨hp, hadmitted⟩, rfl, rfl, rfl⟩
      exact ⟨⟨p, hp, rfl, rfl⟩, rfl, hadmitted⟩
    · rintro ⟨⟨p, hp, rfl, rfl⟩, rfl, hadmitted⟩
      exact ⟨p, ⟨hp, hadmitted⟩, rfl, rfl, rfl⟩
  rw [hone, hone, h.mem_iff]

/-- The row of a new memory depends on its parents through the first one and the relations. -/
theorem SameLineage.newMemory (h : SameLineage (parents.map ResolvedParent.pair) (parents'.map ResolvedParent.pair))
    (hread : ∀ p ∈ parents, ∃ m ∈ db.memories, ReadFrom batch.orgId batch.containerTag p m)
    (hread' : ∀ p ∈ parents', ∃ m ∈ db.memories, ReadFrom batch.orgId batch.containerTag p m) :
    Storage.newMemory env now batch proposal parents id = Storage.newMemory env now batch proposal parents' id := by
  have hderives : (parents.any fun parent => parent.relation = "derives") =
      parents'.any fun parent => parent.relation = "derives" := by
    rw [Bool.eq_iff_iff, List.any_eq_true, List.any_eq_true]
    simp only [decide_eq_true_eq]
    constructor
    · rintro ⟨p, hp, hrelation⟩
      obtain ⟨q, hq, _, hrelation'⟩ := h.mem_iff.mp ⟨p, hp, rfl, hrelation⟩
      exact ⟨q, hq, hrelation'⟩
    · rintro ⟨p, hp, hrelation⟩
      obtain ⟨q, hq, _, hrelation'⟩ := h.mem_iff.mpr ⟨p, hp, rfl, hrelation⟩
      exact ⟨q, hq, hrelation'⟩
  have hfirst := h.1
  unfold Storage.newMemory
  rw [hderives]
  cases parents with
  | nil =>
    cases parents' with
    | nil => rfl
    | cons q _ => cases hfirst
  | cons p rest =>
    cases parents' with
    | nil => cases hfirst
    | cons q rest' =>
      obtain ⟨m, hm, hid, _, _, hroot, hversion⟩ := hread p List.mem_cons_self
      obtain ⟨m', hm', hid', _, _, hroot', hversion'⟩ := hread' q List.mem_cons_self
      have hsame : p.id = q.id := Option.some.inj hfirst
      obtain rfl := Table.eq_of_key hm hm' (hid.trans (hsame.trans hid'.symm))
      have hroots : p.rootMemoryId = q.rootMemoryId := hroot.symm.trans hroot'
      have hversions : p.version = q.version := hversion.symm.trans hversion'
      simp [hsame, hroots, hversions]

/-- Two new memories of the same lineage leave the same rows behind. -/
theorem Creates.same (hc : Creates env now batch proposal s u parents id)
    (hc' : Creates env now batch proposal s' u' parents' id) (hcovers : Covers env batch s) (hcovers' : Covers env batch s')
    (hrows : SameRows s.db s'.db)
    (h : SameLineage (parents.map ResolvedParent.pair) (parents'.map ResolvedParent.pair)) : SameRows u.db u'.db := by
  have hadds := hc.adds hcovers
  have hadds' := hc'.adds hcovers'
  have hread' : ∀ p ∈ parents', ∃ m ∈ s.db.memories, ReadFrom batch.orgId batch.containerTag p m := by
    intro p hp
    obtain ⟨m, hm, hread⟩ := hc'.parents_read p hp
    exact ⟨m, (hrows.memories m).mp hm, hread⟩
  constructor
  case memories =>
    intro m
    rw [hadds.memories, hadds'.memories, h.newMemory hc.parents_read hread',
      (retiredParents_withdraws now s.db parents).memories, (retiredParents_withdraws now s'.db parents').memories]
    simp only [hrows.memories, h.updatedIds]
  case relations =>
    intro r
    rw [hadds.relations, hadds'.relations, h.links]
    exact or_congr_left (hrows.relations r)

end Lineage

-- ---------------------------------------------------------------------------
-- Side by side
-- ---------------------------------------------------------------------------

/-- What every store keeps of its memories, whichever parents they have. -/
structure Sound (env : Env) (db : Database) : Prop where
  descent : Descent db
  flags : FlagsAgree env db

theorem Sound.steps (h : Sound env db) (hsteps : Relation.ReflTransGen (MemoryStep env) db db') : Sound env db' :=
  steps_invariant (fun _ _ h hstep => ⟨h.descent.step hstep, h.flags.step h.descent hstep⟩) h hsteps

theorem reconcileProposal_steps {proposal : MemoryProposal} {s u : Reconciliation}
    (h : reconcileProposal env now batch s proposal = .ok u) (hcovers : Covers env batch s) :
    Relation.ReflTransGen (MemoryStep env) s.db u.db := by
  have hloop : reconcileProposals env now batch [proposal] s = .ok u := by simp [reconcileProposals, h]
  exact reconcileProposals_steps hloop hcovers

/-- The identifier that a new memory would get is not used. -/
def NextUnused (env : Env) (batch : Batch) (db : Database) : Prop :=
  (∀ m ∈ db.memories, m.id ≠ "mem_" ++ env.generateId db.idsDrawn) ∧
    (⟨"mem_" ++ env.generateId db.idsDrawn, batch.documentId⟩ : MemorySource) ∉ db.memorySources

/-- A proposal that matches nothing becomes a memory if and only if its identifier is not used. -/
theorem reconcileProposal_creates_iff {proposal : MemoryProposal} {s : Reconciliation} (hflags : FlagsAgree env s.db)
    (h : s.exactMemories.lookup (normalizedMemory env proposal.content) = none) :
    (∃ u, reconcileProposal env now batch s proposal = .ok u) ↔ batch.dimensions ≠ 0 ∧ NextUnused env batch s.db := by
  constructor
  · rintro ⟨u, hu⟩
    rcases reconcileProposal_ok hu with ⟨id, hlookup, _⟩ | ⟨parents, id, hc⟩
    · rw [h] at hlookup
      cases hlookup
    · obtain rfl := hc.drawn
      unfold reconcileProposal at hu
      simp only [h] at hu
      split at hu
      · rename_i hmemory hsource
        split at hu
        · cases hu
        · rename_i hembed
          refine ⟨?_, hc.fresh, fun hmem => Table.insert_fresh hsource _ hmem rfl⟩
          intro hzero
          simp [insertMemoryEmbedding, hzero] at hembed
      · cases hu
  · rintro ⟨hdimensions, hmemory, hsource⟩
    unfold reconcileProposal
    simp only [h]
    generalize hparents : resolveMemoryParents s.db batch.orgId batch.containerTag proposal.parents s.temporaryIds = parents
    generalize hid : "mem_" ++ env.generateId s.db.idsDrawn = id at hmemory hsource ⊢
    obtain ⟨memories, hmemories⟩ := Table.insert_isSome (r := newMemory env now batch proposal parents id) hmemory
    have hnew : ∀ r ∈ s.db.memorySources, r ≠ ⟨id, batch.documentId⟩ := fun r hr heq => hsource (heq ▸ hr)
    obtain ⟨memorySources, hsources⟩ := Table.insert_isSome hnew
    simp only [hmemories, hsources]
    generalize hlinked : parents.foldl (linkParent now id)
      { s.db with memories, memorySources, idsDrawn := s.db.idsDrawn + 1 } = linked
    have hvector : ∀ e ∈ linked.memoryEmbeddings, e.memoryId ≠ (newEmbedding batch proposal id).memoryId := by
      intro e he
      rw [← hlinked, linkParents_embeddings] at he
      obtain ⟨e₀, he₀, hkey, _⟩ := Table.of_mem_update he
      obtain ⟨m, hm, hown⟩ := hflags.owned e₀ he₀
      exact fun heq => hmemory m hm (hown.trans (hkey.trans heq))
    obtain ⟨memoryEmbeddings, hembeddings⟩ := Table.insert_isSome hvector
    have hembed : insertMemoryEmbedding linked id batch.modelId batch.dimensions proposal.vector =
        .ok { linked with memoryEmbeddings } := by
      unfold insertMemoryEmbedding
      rw [if_neg hdimensions]
      unfold newEmbedding at hembeddings
      rw [hembeddings]
    exact ⟨_, by rw [hembed]⟩

/-- The loop over a batch, and the loop over the batch without its repetitions, after the proposals that
    `n` has named. -/
structure Abreast (env : Env) (now : Time) (batch : Batch) (db : Database) (seen dropped : List String) (n : Names)
    (s s' : Reconciliation) : Prop where
  progress : ∃ past, Progress env now batch db past n s
  progress' : ∃ past, Progress env now batch db past (n.without dropped) s'
  sound : Sound env s.db
  sound' : Sound env s'.db
  contents : ∀ id content, (∃ m ∈ s'.db.memories, m.id = id ∧ m.content = content) ↔
    ∃ m ∈ s.db.memories, m.id = id ∧ m.content = content
  sources : ∀ r, r ∈ s'.db.memorySources ↔ r ∈ s.db.memorySources
  known : ∀ content ∈ seen, ∃ id, n.exactMemories.lookup content = some id ∧
    (⟨id, batch.documentId⟩ : MemorySource) ∈ s.db.memorySources
  named : ∀ name ∈ dropped, name ∈ n.temporaryIds.map (·.1)
  added : ∀ m ∈ s.db.memories, (∀ m₀ ∈ db.memories, m₀.id ≠ m.id) →
    n.exactMemories.lookup (normalizedMemory env m.content) = some m.id

/-- The contents after a new memory. -/
theorem Creates.contents {proposal : MemoryProposal} {s u : Reconciliation} {parents : List ResolvedParent} {id : String}
    (hc : Creates env now batch proposal s u parents id) (hcovers : Covers env batch s) {name content : String} :
    (∃ m ∈ u.db.memories, m.id = name ∧ m.content = content) ↔
      (∃ m ∈ s.db.memories, m.id = name ∧ m.content = content) ∨ id = name ∧ proposal.content = content := by
  have hadds := hc.adds hcovers
  have hwithdraws := retiredParents_withdraws now s.db parents
  constructor
  · rintro ⟨m, hm, rfl, rfl⟩
    rcases (hadds.memories m).mp hm with hold | rfl
    · obtain ⟨m₀, hm₀, rfl⟩ := (hwithdraws.memories m).mp hold
      have hbecomes := hwithdraws.withdrawal.becomes_ite (Storage.updatedIds parents) m₀
      exact .inl ⟨m₀, hm₀, hbecomes.id.symm, hbecomes.content.symm⟩
    · exact .inr ⟨rfl, rfl⟩
  · rintro (⟨m₀, hm₀, rfl, rfl⟩ | ⟨rfl, rfl⟩)
    · have hbecomes := hwithdraws.withdrawal.becomes_ite (Storage.updatedIds parents) m₀
      refine ⟨_, (hadds.memories _).mpr (.inl ((hwithdraws.memories _).mpr ⟨m₀, hm₀, rfl⟩)), hbecomes.id, hbecomes.content⟩
    · exact ⟨_, (hadds.memories _).mpr (.inr rfl), rfl, rfl⟩

namespace Abreast

variable {seen dropped : List String} {n : Names} {s s' u u' : Reconciliation} {proposal : MemoryProposal}
  {parents parents' : List ResolvedParent} {id : String}

theorem start (h : Sound env db) : Abreast env now batch db [] [] (Names.start env batch db)
    (reconciliationStart env batch db) (reconciliationStart env batch db) where
  progress := ⟨[], .start⟩
  progress' := ⟨[], Names.without_nil ▸ .start⟩
  sound := h
  sound' := h
  contents _ _ := Iff.rfl
  sources _ := Iff.rfl
  known := nofun
  named := nofun
  added m hm hnew := absurd rfl (hnew m hm)

theorem lookup (h : Abreast env now batch db seen dropped n s s') (content : String) :
    s.exactMemories.lookup content = n.exactMemories.lookup content ∧
      s'.exactMemories.lookup content = n.exactMemories.lookup content := by
  obtain ⟨_, hp⟩ := h.progress
  obtain ⟨_, hp'⟩ := h.progress'
  rw [hp.exactMemories, hp'.exactMemories]
  exact ⟨rfl, rfl⟩

/-- A repetition writes nothing, and the name that it gives is the only difference. -/
theorem drop (h : Abreast env now batch db seen dropped n s s')
    (hseen : normalizedMemory env proposal.content ∈ seen) (hfresh : proposal.temporaryId ∉ n.temporaryIds.map (·.1)) :
    ∃ u, reconcileProposal env now batch s proposal = .ok u ∧ u.db = s.db ∧
      Abreast env now batch db seen (proposal.temporaryId :: dropped) (n.next env proposal) u s' := by
  obtain ⟨id, hknown, hsource⟩ := h.known _ hseen
  have hlookup := (h.lookup (normalizedMemory env proposal.content)).1.trans hknown
  have hturn : reconcileProposal env now batch s proposal = .ok (matched batch proposal id s) := by
    simp only [reconcileProposal, hlookup, matched]
  have hdb : (matched batch proposal id s).db = s.db := addSource_present hsource
  have hold : (n.planned env proposal).isNew = false := by simp [Names.planned, hknown]
  have hexact : (n.next env proposal).exactMemories = n.exactMemories := Names.next_known hknown
  obtain ⟨past, hp⟩ := h.progress
  refine ⟨_, hturn, hdb, ?_⟩
  constructor
  case progress => exact ⟨_, hp.turn hturn⟩
  case progress' =>
    rw [Names.next_without hold hfresh]
    exact h.progress'
  case sound => exact hdb.symm ▸ h.sound
  case sound' => exact h.sound'
  case contents => exact hdb.symm ▸ h.contents
  case sources => exact hdb.symm ▸ h.sources
  case known =>
    rw [hexact, hdb]
    exact h.known
  case named =>
    rw [Names.next_temporaryIds]
    intro name hname
    rcases List.mem_cons.mp hname with rfl | hname
    · exact List.mem_cons_self
    · exact List.mem_cons_of_mem _ (h.named name hname)
  case added =>
    rw [hexact, hdb]
    exact h.added

theorem idsDrawn (h : Abreast env now batch db seen dropped n s s') : s'.db.idsDrawn = s.db.idsDrawn := by
  obtain ⟨_, hp⟩ := h.progress
  obtain ⟨_, hp'⟩ := h.progress'
  exact hp'.idsDrawn.trans hp.idsDrawn.symm

theorem covers (h : Abreast env now batch db seen dropped n s s') : Covers env batch s ∧ Covers env batch s' := by
  obtain ⟨_, hp⟩ := h.progress
  obtain ⟨_, hp'⟩ := h.progress'
  exact ⟨hp.covers, hp'.covers⟩

theorem nextUnused (h : Abreast env now batch db seen dropped n s s') :
    NextUnused env batch s'.db ↔ NextUnused env batch s.db := by
  unfold NextUnused
  rw [h.idsDrawn, h.sources]
  refine and_congr_left fun _ => ⟨?_, ?_⟩
  · intro hunused m hm
    obtain ⟨m', hm', hid, _⟩ := (h.contents m.id m.content).mpr ⟨m, hm, rfl, rfl⟩
    exact hid ▸ hunused m' hm'
  · intro hunused m hm
    obtain ⟨m', hm', hid, _⟩ := (h.contents m.id m.content).mp ⟨m, hm, rfl, rfl⟩
    exact hid ▸ hunused m' hm'

/-- A proposal of both batches succeeds in both loops, or in none. -/
theorem succeeds (h : Abreast env now batch db seen dropped n s s') (proposal : MemoryProposal) :
    (∃ u, reconcileProposal env now batch s proposal = .ok u) ↔
      ∃ u', reconcileProposal env now batch s' proposal = .ok u' := by
  obtain ⟨hlookup, hlookup'⟩ := h.lookup (normalizedMemory env proposal.content)
  cases hexact : n.exactMemories.lookup (normalizedMemory env proposal.content) with
  | some id => simp [reconcileProposal, hlookup, hlookup', hexact]
  | none =>
    rw [reconcileProposal_creates_iff h.sound.flags (hlookup.trans hexact),
      reconcileProposal_creates_iff h.sound'.flags (hlookup'.trans hexact), h.nextUnused]

/-- What a proposal of both batches does in both loops. -/
inductive Turn (env : Env) (now : Time) (batch : Batch) (n : Names) (proposal : MemoryProposal) (s s' u u' : Reconciliation) :
    Prop where
  | repeats {id : String} (hknown : n.exactMemories.lookup (normalizedMemory env proposal.content) = some id)
      (hu : u = matched batch proposal id s) (hu' : u' = matched batch proposal id s')
  | creates {parents parents' : List ResolvedParent} {id : String}
      (hunknown : n.exactMemories.lookup (normalizedMemory env proposal.content) = none)
      (hc : Creates env now batch proposal s u parents id) (hc' : Creates env now batch proposal s' u' parents' id)

theorem turn (h : Abreast env now batch db seen dropped n s s') (hu : reconcileProposal env now batch s proposal = .ok u)
    (hu' : reconcileProposal env now batch s' proposal = .ok u') : Turn env now batch n proposal s s' u u' := by
  obtain ⟨hlookup, hlookup'⟩ := h.lookup (normalizedMemory env proposal.content)
  rcases reconcileProposal_ok hu with ⟨id, hid, hmatched⟩ | ⟨parents, id, hc⟩
  · rcases reconcileProposal_ok hu' with ⟨id', hid', hmatched'⟩ | ⟨parents', id', hc'⟩
    · rw [hlookup] at hid
      rw [hlookup'] at hid'
      obtain rfl : id = id' := Option.some.inj (hid.symm.trans hid')
      exact .repeats hid hmatched hmatched'
    · rw [hlookup, ← hlookup', hc'.unmatched] at hid
      cases hid
  · rcases reconcileProposal_ok hu' with ⟨id', hid', _⟩ | ⟨parents', id', hc'⟩
    · rw [hlookup', ← hlookup, hc.unmatched] at hid'
      cases hid'
    · obtain rfl : id = id' := by rw [hc.drawn, hc'.drawn, h.idsDrawn]
      exact .creates (hlookup ▸ hc.unmatched) hc hc'

theorem keep (h : Abreast env now batch db seen dropped n s s') (hfresh : proposal.temporaryId ∉ n.temporaryIds.map (·.1))
    (hu : reconcileProposal env now batch s proposal = .ok u)
    (hu' : reconcileProposal env now batch s' proposal = .ok u') :
    Abreast env now batch db (normalizedMemory env proposal.content :: seen) dropped (n.next env proposal) u u' := by
  obtain ⟨past, hp⟩ := h.progress
  obtain ⟨past', hp'⟩ := h.progress'
  have hnamed : proposal.temporaryId ∉ dropped := fun hmem => hfresh (h.named _ hmem)
  have hprogress := hp.turn hu
  constructor
  case progress => exact ⟨_, hprogress⟩
  case progress' =>
    rw [← Names.without_next hnamed]
    exact ⟨_, hp'.turn hu'⟩
  case sound => exact h.sound.steps (reconcileProposal_steps hu hp.covers)
  case sound' => exact h.sound'.steps (reconcileProposal_steps hu' hp'.covers)
  case contents =>
    intro name content
    cases h.turn hu hu' with
    | repeats _ hmatched hmatched' =>
      subst hmatched hmatched'
      exact h.contents name content
    | creates _ hc hc' => rw [hc.contents hp.covers, hc'.contents hp'.covers, h.contents]
  case sources =>
    intro r
    cases h.turn hu hu' with
    | repeats _ hmatched hmatched' =>
      subst hmatched hmatched'
      exact Table.mem_insertOrIgnore.trans ((or_congr_left (h.sources r)).trans Table.mem_insertOrIgnore.symm)
    | creates _ hc hc' => rw [hc.sources, hc'.sources, h.sources]
  case named =>
    rw [Names.next_temporaryIds]
    exact fun name hname => List.mem_cons_of_mem _ (h.named name hname)
  case known =>
    cases h.turn hu hu' with
    | @repeats id hknown hmatched _ =>
      subst hmatched
      rw [Names.next_known hknown]
      intro content hcontent
      rcases List.mem_cons.mp hcontent with rfl | hcontent
      · exact ⟨id, hknown, Table.mem_insertOrIgnore.mpr (.inr rfl)⟩
      · obtain ⟨id', hlookup, hsource⟩ := h.known content hcontent
        exact ⟨id', hlookup, Table.mem_insertOrIgnore.mpr (.inl hsource)⟩
    | @creates parents parents' id hunknown hc _ =>
      rw [← hprogress.exactMemories, hc.exactMemories]
      intro content hcontent
      rw [List.lookup_cons]
      split
      · exact ⟨id, rfl, (hc.sources _).mpr (.inr rfl)⟩
      · rename_i hother
        rcases List.mem_cons.mp hcontent with rfl | hcontent
        · exact absurd (beq_self_eq_true _) (ne_true_of_eq_false hother)
        · obtain ⟨id', hlookup, hsource⟩ := h.known content hcontent
          exact ⟨id', hp.exactMemories ▸ hlookup, (hc.sources _).mpr (.inl hsource)⟩
  case added =>
    cases h.turn hu hu' with
    | repeats hknown hmatched _ =>
      subst hmatched
      rw [Names.next_known hknown]
      exact h.added
    | @creates parents parents' id hunknown hc _ =>
      rw [← hprogress.exactMemories, hc.exactMemories, hp.exactMemories]
      intro m hm hnew
      rw [List.lookup_cons]
      rcases (hc.contents hp.covers).mp ⟨m, hm, rfl, rfl⟩ with ⟨m₀, hm₀, hid, hcontent⟩ | ⟨hid, hcontent⟩
      · have hlookup := h.added m₀ hm₀ (hid ▸ hnew)
        rw [hid, hcontent] at hlookup
        split
        · rename_i heq
          rw [eq_of_beq heq, hunknown] at hlookup
          cases hlookup
        · exact hlookup
      · rw [hcontent, beq_self_eq_true, hid]

end Abreast

-- ---------------------------------------------------------------------------
-- Whole batches
-- ---------------------------------------------------------------------------

/-- No temporary identifier is given twice. -/
structure NamesFresh (n : Names) (proposals : List MemoryProposal) : Prop where
  distinct : (proposals.map (·.temporaryId)).Nodup
  fresh : ∀ proposal ∈ proposals, proposal.temporaryId ∉ n.temporaryIds.map (·.1)

theorem NamesFresh.next {n : Names} {proposal : MemoryProposal} {rest : List MemoryProposal}
    (h : NamesFresh n (proposal :: rest)) : NamesFresh (n.next env proposal) rest := by
  obtain ⟨hnew, hdistinct⟩ := List.nodup_cons.mp h.distinct
  refine ⟨hdistinct, fun p hp => ?_⟩
  rw [Names.next_temporaryIds, List.map_cons, List.mem_cons, not_or]
  refine ⟨?_, h.fresh p (List.mem_cons_of_mem _ hp)⟩
  exact fun heq => hnew (List.mem_map.mpr ⟨p, hp, heq⟩)

/-- The two loops over the rest of a batch, from `s` to `t` with its repetitions and from `s'` to `t'` without them. -/
inductive SideBySide (env : Env) (now : Time) (batch : Batch) (db : Database) : List String → List String → Names →
    List MemoryProposal → Reconciliation → Reconciliation → Reconciliation → Reconciliation → Prop where
  | nil {seen dropped : List String} {n : Names} {s s' : Reconciliation}
      (h : Abreast env now batch db seen dropped n s s') : SideBySide env now batch db seen dropped n [] s s' s s'
  | drop {seen dropped : List String} {n : Names} {proposal : MemoryProposal} {rest : List MemoryProposal}
      {s s' t t' u : Reconciliation} (hseen : normalizedMemory env proposal.content ∈ seen) (hdb : u.db = s.db)
      (hrest : SideBySide env now batch db seen (proposal.temporaryId :: dropped) (n.next env proposal) rest u s' t t') :
      SideBySide env now batch db seen dropped n (proposal :: rest) s s' t t'
  | keep {seen dropped : List String} {n : Names} {proposal : MemoryProposal} {rest : List MemoryProposal}
      {s s' t t' u u' : Reconciliation} (hseen : normalizedMemory env proposal.content ∉ seen)
      (h : Abreast env now batch db seen dropped n s s') (hturn : Abreast.Turn env now batch n proposal s s' u u')
      (hrest : SideBySide env now batch db (normalizedMemory env proposal.content :: seen) dropped (n.next env proposal)
        rest u u' t t') :
      SideBySide env now batch db seen dropped n (proposal :: rest) s s' t t'

section Runs

variable {seen dropped : List String} {n : Names} {s s' t t' : Reconciliation} {proposals : List MemoryProposal}

/-- The loop succeeds with the repetitions if and only if it does without them. -/
theorem Abreast.succeed (h : Abreast env now batch db seen dropped n s s') (hnames : NamesFresh n proposals) :
    (∃ t, reconcileProposals env now batch proposals s = .ok t) ↔
      ∃ t', reconcileProposals env now batch (dropRepeats env seen proposals) s' = .ok t' := by
  induction proposals generalizing seen dropped n s s' with
  | nil => exact ⟨fun _ => ⟨s', rfl⟩, fun _ => ⟨s, rfl⟩⟩
  | cons proposal rest ih =>
    have hfresh := hnames.fresh proposal List.mem_cons_self
    by_cases hseen : normalizedMemory env proposal.content ∈ seen
    · obtain ⟨u, hu, _, hdrop⟩ := h.drop hseen hfresh
      rw [dropRepeats, if_pos hseen, reconcileProposals, hu]
      exact ih hdrop hnames.next
    · rw [dropRepeats, if_neg hseen, reconcileProposals, reconcileProposals]
      have hone := h.succeeds proposal
      cases hu : reconcileProposal env now batch s proposal with
      | error e =>
        cases hu' : reconcileProposal env now batch s' proposal with
        | error e' => simp
        | ok u' =>
          obtain ⟨u, hok⟩ := hone.mpr ⟨u', hu'⟩
          rw [hu] at hok
          cases hok
      | ok u =>
        obtain ⟨u', hu'⟩ := hone.mp ⟨u, hu⟩
        rw [hu']
        exact ih (h.keep hfresh hu hu') hnames.next

theorem Abreast.sideBySide (h : Abreast env now batch db seen dropped n s s') (hnames : NamesFresh n proposals)
    (ht : reconcileProposals env now batch proposals s = .ok t)
    (ht' : reconcileProposals env now batch (dropRepeats env seen proposals) s' = .ok t') :
    SideBySide env now batch db seen dropped n proposals s s' t t' := by
  induction proposals generalizing seen dropped n s s' with
  | nil =>
    cases ht
    cases ht'
    exact .nil h
  | cons proposal rest ih =>
    have hfresh := hnames.fresh proposal List.mem_cons_self
    rw [dropRepeats] at ht'
    rw [reconcileProposals] at ht
    by_cases hseen : normalizedMemory env proposal.content ∈ seen
    · obtain ⟨u, hu, hdb, hdrop⟩ := h.drop hseen hfresh
      rw [hu] at ht
      rw [if_pos hseen] at ht'
      exact .drop hseen hdb (ih hdrop hnames.next ht ht')
    · rw [if_neg hseen, reconcileProposals] at ht'
      split at ht
      · cases ht
      · rename_i u hu
        split at ht'
        · cases ht'
        · rename_i u' hu'
          exact .keep hseen h (h.turn hu hu') (ih (h.keep hfresh hu hu') hnames.next ht ht')

end Runs

/-! ## What the parents leave behind -/

/-- `CHECK (relation IN ('updates', 'extends', 'derives'))`. -/
def Admitted (relation : String) : Prop := relation = "updates" ∨ relation = "extends" ∨ relation = "derives"

/-- The memories of a database are kept, and so are the relations to their parents. -/
structure Later (db db' : Database) : Prop where
  memories : ∀ m ∈ db.memories, ∃ m' ∈ db'.memories, m.Becomes m'
  relations : ∀ r, (∃ m ∈ db.memories, m.id = r.childId) → (r ∈ db'.memoryRelations ↔ r ∈ db.memoryRelations)

theorem Later.refl (db : Database) : Later db db := ⟨fun m hm => ⟨m, hm, .refl m⟩, fun _ _ => Iff.rfl⟩

theorem Later.trans {db'' : Database} (h : Later db db') (h' : Later db' db'') : Later db db'' where
  memories m hm := by
    obtain ⟨m', hm', hbecomes⟩ := h.memories m hm
    obtain ⟨m'', hm'', hbecomes'⟩ := h'.memories m' hm'
    exact ⟨m'', hm'', hbecomes.trans hbecomes'⟩
  relations r hr := by
    obtain ⟨m, hm, hid⟩ := hr
    obtain ⟨m', hm', hbecomes⟩ := h.memories m hm
    exact (h'.relations r ⟨m', hm', hbecomes.id.trans hid⟩).trans (h.relations r ⟨m, hm, hid⟩)

section Creates

variable {proposal : MemoryProposal} {s u : Reconciliation} {parents : List ResolvedParent} {id : String}

theorem Creates.later (hc : Creates env now batch proposal s u parents id) (hcovers : Covers env batch s) :
    Later s.db u.db := by
  have hadds := hc.adds hcovers
  constructor
  case memories =>
    intro m hm
    obtain ⟨m', hm', hbecomes⟩ := (retiredParents_withdraws now s.db parents).becomes hm
    exact ⟨m', (hadds.memories m').mpr (.inl hm'), hbecomes⟩
  case relations =>
    rintro r ⟨m, hm, hid⟩
    refine (hadds.relations r).trans (or_iff_left fun hlink => ?_)
    exact hc.fresh m hm (hid.trans (mem_parentLinks hlink).1)

/-- The row of a new memory names its first parent. -/
theorem Creates.parent (hc : Creates env now batch proposal s u parents id) (hcovers : Covers env batch s) :
    ∃ m ∈ u.db.memories, m.id = id ∧ m.parentMemoryId = (parents.map ResolvedParent.pair).head?.map (·.1) := by
  refine ⟨_, ((hc.adds hcovers).memories _).mpr (.inr rfl), rfl, ?_⟩
  cases parents with
  | nil => rfl
  | cons p rest => rfl

/-- The relations to a new memory are those of its parents. -/
theorem Creates.relation_iff (hc : Creates env now batch proposal s u parents id) (hcovers : Covers env batch s)
    (hdescent : Descent s.db) {memory relation : String} (hadmitted : Admitted relation) :
    ⟨memory, id, relation⟩ ∈ u.db.memoryRelations ↔ (memory, relation) ∈ parents.map ResolvedParent.pair := by
  rw [(hc.adds hcovers).relations]
  constructor
  · rintro (hold | hlink)
    · obtain ⟨_, _, c, hmem, _, hid, _⟩ := hdescent.related _ hold
      exact absurd hid (hc.fresh c hmem)
    · obtain ⟨_, p, hp, hid, hrelation⟩ := mem_parentLinks hlink
      exact List.mem_map.mpr ⟨p, hp, Prod.ext hid hrelation⟩
  · intro hpair
    obtain ⟨p, hp, hpair⟩ := List.mem_map.mp hpair
    obtain ⟨rfl, rfl⟩ : p.id = memory ∧ p.relation = relation := Prod.mk.inj hpair
    exact .inr (List.mem_map.mpr ⟨p, List.mem_filter.mpr ⟨hp, decide_eq_true hadmitted⟩, rfl⟩)

end Creates

theorem Names.resolves_admitted {n : Names} {proposal : MemoryProposal} (h : ∀ parent ∈ proposal.parents, Admitted parent.relation) :
    ∀ p ∈ n.resolves proposal, Admitted p.2 := by
  intro p hp
  obtain ⟨parent, hparent, rfl⟩ := List.mem_map.mp (List.mem_filter.mp hp).1
  exact h parent hparent

/-! ## The law -/

section Runs

variable {seen dropped : List String} {n : Names} {s s' t t' : Reconciliation} {proposals : List MemoryProposal}

theorem SideBySide.later (h : SideBySide env now batch db seen dropped n proposals s s' t t') :
    Later s.db t.db ∧ Later s'.db t'.db := by
  induction h with
  | nil => exact ⟨.refl _, .refl _⟩
  | drop _ hdb _ ih => exact ⟨hdb ▸ ih.1, ih.2⟩
  | keep _ h hturn _ ih =>
    cases hturn with
    | repeats _ hu hu' =>
      subst hu hu'
      exact ⟨⟨ih.1.memories, ih.1.relations⟩, ⟨ih.2.memories, ih.2.relations⟩⟩
    | creates _ hc hc' => exact ⟨(hc.later h.covers.1).trans ih.1, (hc'.later h.covers.2).trans ih.2⟩

theorem Abreast.resolves (h : Abreast env now batch db seen dropped n s s') (proposal : MemoryProposal) :
    (resolveMemoryParents s.db batch.orgId batch.containerTag proposal.parents s.temporaryIds).map ResolvedParent.pair =
      n.resolves proposal ∧
    (resolveMemoryParents s'.db batch.orgId batch.containerTag proposal.parents s'.temporaryIds).map ResolvedParent.pair =
      (n.without dropped).resolves proposal := by
  obtain ⟨_, hp⟩ := h.progress
  obtain ⟨_, hp'⟩ := h.progress'
  exact ⟨hp.resolves proposal, hp'.resolves proposal⟩

/-- Where every new memory keeps its parents, the rows stay the same. -/
theorem SideBySide.same (h : SideBySide env now batch db seen dropped n proposals s s' t t')
    (hrows : SameRows s.db s'.db) (hkept : LineageKept env seen dropped n proposals) : SameRows t.db t'.db := by
  induction h with
  | nil => exact hrows
  | drop hseen hdb _ ih =>
    rw [LineageKept, if_pos hseen] at hkept
    exact ih (hdb.symm ▸ hrows) hkept
  | @keep seen dropped n proposal rest s s' t t' u u' hseen h hturn _ ih =>
    rw [LineageKept, if_neg hseen] at hkept
    obtain ⟨hlineage, hrest⟩ := hkept
    apply ih _ hrest
    cases hturn with
    | repeats _ hu hu' =>
      subst hu hu'
      exact ⟨hrows.memories, hrows.relations⟩
    | creates hunknown hc hc' =>
      apply hc.same hc' h.covers.1 h.covers.2 hrows
      rw [hc.resolved, hc'.resolved, (h.resolves proposal).1, (h.resolves proposal).2]
      exact hlineage (Names.planned_isNew.mpr hunknown)

/-- Where the rows are the same in the end, every new memory has kept its parents. -/
theorem SideBySide.kept (h : SideBySide env now batch db seen dropped n proposals s s' t t')
    (hadmitted : ∀ proposal ∈ proposals, ∀ parent ∈ proposal.parents, Admitted parent.relation)
    (hrows : SameRows t.db t'.db) : LineageKept env seen dropped n proposals := by
  induction h with
  | nil => trivial
  | drop hseen _ _ ih =>
    rw [LineageKept, if_pos hseen]
    exact ih (fun p hp => hadmitted p (List.mem_cons_of_mem _ hp)) hrows
  | @keep seen dropped n proposal rest s s' t t' u u' hseen h hturn hrest ih =>
    rw [LineageKept, if_neg hseen]
    refine ⟨fun hnew => ?_, ih (fun p hp => hadmitted p (List.mem_cons_of_mem _ hp)) hrows⟩
    cases hturn with
    | repeats hknown =>
      rw [Names.planned_isNew, hknown] at hnew
      cases hnew
    | @creates parents parents' id _ hc hc' =>
      obtain ⟨hlater, hlater'⟩ := hrest.later
      have hrelations := Names.resolves_admitted (n := n) (hadmitted proposal List.mem_cons_self)
      have hrelations' := Names.resolves_admitted (n := n.without dropped) (hadmitted proposal List.mem_cons_self)
      rw [← (h.resolves proposal).1, ← hc.resolved] at hrelations ⊢
      rw [← (h.resolves proposal).2, ← hc'.resolved] at hrelations' ⊢
      obtain ⟨m, hm, hid, hparent⟩ := hc.parent h.covers.1
      obtain ⟨m', hm', hid', hparent'⟩ := hc'.parent h.covers.2
      have hiff {memory relation : String} (hadmits : Admitted relation) :
          (memory, relation) ∈ parents.map ResolvedParent.pair ↔ (memory, relation) ∈ parents'.map ResolvedParent.pair := by
        rw [← hc.relation_iff h.covers.1 h.sound.descent hadmits, ← hc'.relation_iff h.covers.2 h.sound'.descent hadmits,
          ← hlater.relations _ ⟨m, hm, hid⟩, ← hlater'.relations _ ⟨m', hm', hid'⟩, hrows.relations]
      refine ⟨?_, fun p hp => (hiff (hrelations p hp)).mp hp, fun p hp => (hiff (hrelations' p hp)).mpr hp⟩
      obtain ⟨r, hr, hbecomes⟩ := hlater.memories m hm
      obtain ⟨r', hr', hbecomes'⟩ := hlater'.memories m' hm'
      obtain rfl := Table.eq_of_key hr ((hrows.memories r').mp hr')
        (hbecomes.id.trans (hid.trans (hid'.symm.trans hbecomes'.id.symm)))
      rw [← hparent, ← hparent', ← hbecomes.parentMemoryId, ← hbecomes'.parentMemoryId]

end Runs

-- ---------------------------------------------------------------------------
-- Up to names
-- ---------------------------------------------------------------------------

/-- The row with other identifiers. -/
def Memory.renamed (rename : String → String) (m : Memory) : Memory :=
  { m with
    id := rename m.id
    rootMemoryId := m.rootMemoryId.map rename
    parentMemoryId := m.parentMemoryId.map rename }

def MemoryRelation.renamed (rename : String → String) (r : MemoryRelation) : MemoryRelation :=
  { r with parentId := rename r.parentId, childId := rename r.childId }

/-- The second of two databases that a store has become is the first one with other names for the new memories. -/
structure Renames (rename : String → String) (db db₁ db₂ : Database) : Prop where
  stored : ∀ m ∈ db.memories, rename m.id = m.id
  distinct : ∀ m ∈ db₁.memories, ∀ m' ∈ db₁.memories, rename m.id = rename m'.id → m.id = m'.id
  memories : ∀ m, m ∈ db₂.memories ↔ ∃ m₁ ∈ db₁.memories, m₁.renamed rename = m
  relations : ∀ r, r ∈ db₂.memoryRelations ↔ ∃ r₁ ∈ db₁.memoryRelations, r₁.renamed rename = r

/-- The memories with their flags, and the relations, are the same up to the identifiers of the new memories. -/
def SameUpToNames (db db₁ db₂ : Database) : Prop := ∃ rename, Renames rename db db₁ db₂

section Renamed

variable {rename : String → String}

theorem SameRows.renames {db₁ db₂ : Database} (h : SameRows db₁ db₂) : Renames id db db₁ db₂ where
  stored _ _ := rfl
  distinct _ _ _ _ hid := hid
  memories m := by
    have hid (m : Memory) : m.renamed id = m := by simp [Memory.renamed]
    simp only [hid, exists_eq_right]
    exact h.memories m
  relations r := by
    have hid (r : MemoryRelation) : r.renamed id = r := rfl
    simp only [hid, exists_eq_right]
    exact h.relations r

/-- The ends of the rows are memories. -/
theorem Descent.renamed (h : Descent db) (hfixed : ∀ m ∈ db.memories, rename m.id = m.id) :
    (∀ m ∈ db.memories, m.renamed rename = m) ∧ ∀ r ∈ db.memoryRelations, r.renamed rename = r := by
  constructor
  · intro m hm
    have hroot : m.rootMemoryId.map rename = m.rootMemoryId := by
      obtain ⟨root, hroot, _, _, hname⟩ := h.lineage.founder hm
      cases hid : m.rootMemoryId with
      | none => rfl
      | some rootId =>
        rw [hid, Option.getD_some] at hname
        rw [Option.map_some, hname, hfixed root hroot]
    have hparent : m.parentMemoryId.map rename = m.parentMemoryId := by
      rcases h.descends m hm with ⟨hnone, _⟩ | ⟨p, hp, _, hsome, _⟩
      · rw [hnone, Option.map_none]
      · rw [hsome, Option.map_some, hfixed p hp]
    unfold Memory.renamed
    rw [hfixed m hm, hroot, hparent]
  · intro r hr
    obtain ⟨p, hp, c, hc, hparent, hchild, _⟩ := h.related r hr
    unfold MemoryRelation.renamed
    rw [← hparent, ← hchild, hfixed p hp, hfixed c hc, hparent, hchild]

variable {seen dropped : List String} {n : Names} {t t' : Reconciliation}

/-- A new memory is the only new one of its content, so its name is the same. -/
theorem Renames.fixed (h : Renames rename db t.db t'.db) (habreast : Abreast env now batch db seen dropped n t t')
    {m : Memory} (hm : m ∈ t.db.memories) : rename m.id = m.id := by
  by_cases hstored : ∃ m₀ ∈ db.memories, m₀.id = m.id
  · obtain ⟨m₀, hm₀, hid⟩ := hstored
    rw [← hid, h.stored m₀ hm₀]
  · have hnew : ∀ m₀ ∈ db.memories, m₀.id ≠ m.id := fun m₀ hm₀ hid => hstored ⟨m₀, hm₀, hid⟩
    obtain ⟨m₁, hm₁, hid, hcontent⟩ := (habreast.contents (rename m.id) m.content).mp
      ⟨m.renamed rename, (h.memories _).mpr ⟨m, hm, rfl⟩, rfl, rfl⟩
    have hnew₁ : ∀ m₀ ∈ db.memories, m₀.id ≠ m₁.id := by
      intro m₀ hm₀ heq
      obtain ⟨_, hprogress⟩ := habreast.progress
      obtain ⟨m', hm', hkept⟩ := hprogress.kept m₀ hm₀
      have hsame : rename m'.id = rename m.id := by rw [hkept, h.stored m₀ hm₀, heq, hid]
      exact hnew m₀ hm₀ (hkept.symm.trans (h.distinct m' hm' m hm hsame))
    have hlookup := habreast.added m hm hnew
    have hlookup₁ := habreast.added m₁ hm₁ hnew₁
    rw [hcontent, hlookup] at hlookup₁
    rw [← hid, Option.some.inj hlookup₁]

theorem Abreast.sameUpToNames_iff (h : Abreast env now batch db seen dropped n t t') :
    SameUpToNames db t.db t'.db ↔ SameRows t.db t'.db := by
  constructor
  · rintro ⟨rename, hrenames⟩
    obtain ⟨hmemories, hrelations⟩ := h.sound.descent.renamed fun m hm => hrenames.fixed h hm
    constructor
    case memories =>
      intro m
      rw [hrenames.memories]
      constructor
      · rintro ⟨m₁, hm₁, rfl⟩
        exact (hmemories m₁ hm₁).symm ▸ hm₁
      · exact fun hm => ⟨m, hm, hmemories m hm⟩
    case relations =>
      intro r
      rw [hrenames.relations]
      constructor
      · rintro ⟨r₁, hr₁, rfl⟩
        exact (hrelations r₁ hr₁).symm ▸ hr₁
      · exact fun hr => ⟨r, hr, hrelations r hr⟩
  · exact fun hrows => ⟨id, hrows.renames⟩

end Renamed

theorem SideBySide.finish {seen dropped : List String} {n : Names} {s s' t t' : Reconciliation} {proposals : List MemoryProposal}
    (h : SideBySide env now batch db seen dropped n proposals s s' t t') :
    ∃ seen dropped n, Abreast env now batch db seen dropped n t t' := by
  induction h with
  | nil h => exact ⟨_, _, _, h⟩
  | drop _ _ _ ih => exact ih
  | keep _ _ _ _ ih => exact ih

-- ---------------------------------------------------------------------------
-- Calls
-- ---------------------------------------------------------------------------

/-- What is certain of the proposals that candidates of a provider become. -/
structure Proper (env : Env) (proposals : List MemoryProposal) : Prop where
  written : ∀ p ∈ proposals, ¬ (p.temporaryId = "" ∨ Text.trim p.content.toList = [])
  distinct : (proposals.map (·.temporaryId)).Nodup
  admitted : ∀ p ∈ proposals, ∀ parent ∈ p.parents, Admitted parent.relation
  vectors : ∀ p ∈ proposals, ∀ q ∈ proposals,
    normalizedMemory env p.content = normalizedMemory env q.content → p.vector = q.vector

/-- The vector of a repetition was checked with the proposal that it repeats. -/
theorem validateProposals_dropRepeats {dimensions : Nat} {seen : List String} {proposals : List MemoryProposal}
    (hwritten : ∀ p ∈ proposals, ¬ (p.temporaryId = "" ∨ Text.trim p.content.toList = []))
    (hvectors : ∀ p ∈ proposals, ∀ q ∈ proposals,
      normalizedMemory env p.content = normalizedMemory env q.content → p.vector = q.vector)
    (hseen : ∀ p ∈ proposals, normalizedMemory env p.content ∈ seen → validateVector env p.vector dimensions = .ok ()) :
    validateProposals env dimensions (dropRepeats env seen proposals) = validateProposals env dimensions proposals := by
  induction proposals generalizing seen with
  | nil => rfl
  | cons proposal rest ih =>
    have hself := hwritten proposal List.mem_cons_self
    have hwritten_rest := fun p hp => hwritten p (List.mem_cons_of_mem _ hp)
    have hvectors_rest := fun p hp q hq => hvectors p (List.mem_cons_of_mem _ hp) q (List.mem_cons_of_mem _ hq)
    rw [dropRepeats, validateProposals.eq_2]
    by_cases hmem : normalizedMemory env proposal.content ∈ seen
    · simp only [if_pos hmem, hseen proposal List.mem_cons_self hmem, if_neg hself]
      exact ih hwritten_rest hvectors_rest fun p hp => hseen p (List.mem_cons_of_mem _ hp)
    · rw [if_neg hmem, validateProposals]
      cases hvector : validateVector env proposal.vector dimensions with
      | error e => rfl
      | ok =>
        simp only [if_neg hself]
        apply ih hwritten_rest hvectors_rest
        intro p hp hcontent
        rcases List.mem_cons.mp hcontent with hsame | hcontent
        · rw [hvectors p (List.mem_cons_of_mem _ hp) proposal List.mem_cons_self hsame]
          exact hvector
        · exact hseen p (List.mem_cons_of_mem _ hp) hcontent

theorem reconcileProposal_error {proposal : MemoryProposal} {s : Reconciliation} {e : StorageError}
    (h : reconcileProposal env now batch s proposal = .error e) : e = .write := by
  unfold reconcileProposal at h
  simp only at h
  split at h
  · cases h
  · split at h
    · split at h
      · rename_i hembed
        cases h
        unfold insertMemoryEmbedding at hembed
        split at hembed
        · exact (Except.error.inj hembed).symm
        · split at hembed
          · exact (Except.error.inj hembed).symm
          · cases hembed
      · cases h
    · exact (Except.error.inj h).symm

theorem reconcileProposals_error {proposals : List MemoryProposal} {s : Reconciliation} {e : StorageError}
    (h : reconcileProposals env now batch proposals s = .error e) : e = .write := by
  induction proposals generalizing s with
  | nil => cases h
  | cons proposal rest ih =>
    rw [reconcileProposals] at h
    split at h
    · rename_i hone
      exact Except.error.inj h ▸ reconcileProposal_error hone
    · exact ih h

/-- The loop returns memories that are there. -/
theorem readRecords_of_loop {proposals : List MemoryProposal} {s : Reconciliation}
    (h : reconcileProposals env now batch proposals (reconciliationStart env batch db) = .ok s) :
    ∃ records, readRecords s.db s.recordIds = .ok records := by
  have hprogress := progress_of_loop h
  apply readRecords_present
  intro id hid
  rw [hprogress.recordIds] at hid
  obtain ⟨p, hp, rfl⟩ := List.mem_map.mp hid
  obtain ⟨m, hm, hmid, _⟩ := (hprogress.present p.id).mp (hprogress.planned p hp).1
  exact ⟨m, hm, hmid⟩

/-- Both fail with one error, or both succeed. -/
def Alike {α : Type} (result result' : Except StorageError α) : Prop :=
  (∃ e, result = .error e ∧ result' = .error e) ∨ ∃ a a', result = .ok a ∧ result' = .ok a'

theorem finishReconciliation_alike {jobId documentId : String} {revision : Nat} (hjobs : db'.jobs = db.jobs)
    (hdocuments : db'.documents = db.documents) :
    Alike (finishReconciliation db jobId documentId revision) (finishReconciliation db' jobId documentId revision) := by
  unfold finishReconciliation Database.countDocument
  simp only [hjobs, hdocuments]
  split
  · exact .inl ⟨_, rfl, rfl⟩
  · exact .inr ⟨_, _, rfl, rfl⟩

section Call

variable {expectedRevision : Option Nat} {completionJobId : Option String} {proposals : List MemoryProposal}
  {records₁ records₂ : List MemoryRecord} {db₁ db₂ : Database}

theorem Proper.fresh (h : Proper env proposals) : NamesFresh (Names.start env batch db) proposals :=
  ⟨h.distinct, fun _ _ => List.not_mem_nil⟩

theorem sound_of_reachable (h : (memoryMachine env).Reachable db) : Sound env db :=
  ⟨descent_of_reachable h, flagsAgree_of_reachable h⟩

/-- The loops over a batch and over the batch without its repetitions both fail, or both succeed. -/
theorem loops_alike (h : Sound env db) (hproper : Proper env proposals) :
    Alike (reconcileProposals env now batch proposals (reconciliationStart env batch db))
      (reconcileProposals env now batch (dropRepeats env [] proposals) (reconciliationStart env batch db)) := by
  have hstart : Abreast env now batch db [] [] (Names.start env batch db) (reconciliationStart env batch db)
      (reconciliationStart env batch db) := .start h
  have hsucceed := hstart.succeed hproper.fresh
  cases hloop : reconcileProposals env now batch proposals (reconciliationStart env batch db) with
  | ok t =>
    obtain ⟨t', hloop'⟩ := hsucceed.mp ⟨t, hloop⟩
    exact .inr ⟨t, t', rfl, hloop'⟩
  | error e =>
    cases hloop' : reconcileProposals env now batch (dropRepeats env [] proposals) (reconciliationStart env batch db) with
    | ok t' =>
      obtain ⟨t, hok⟩ := hsucceed.mpr ⟨t', hloop'⟩
      rw [hloop] at hok
      cases hok
    | error e' => exact .inl ⟨.write, by rw [reconcileProposals_error hloop], by rw [reconcileProposals_error hloop']⟩

/-- A call with the repetitions and one without them both fail with one error, or both succeed. -/
theorem dropRepeats_alike (h : Sound env db) (hproper : Proper env proposals) :
    Alike (reconcileMemoriesFor env now batch expectedRevision completionJobId proposals db)
      (reconcileMemoriesFor env now batch expectedRevision completionJobId (dropRepeats env [] proposals) db) := by
  have hvalid : validateProposals env batch.dimensions (dropRepeats env [] proposals) =
      validateProposals env batch.dimensions proposals :=
    validateProposals_dropRepeats hproper.written hproper.vectors fun _ _ hmem => absurd hmem List.not_mem_nil
  have hloops : Alike (reconcileProposals env now batch proposals (reconciliationStart env batch db))
      (reconcileProposals env now batch (dropRepeats env [] proposals) (reconciliationStart env batch db)) :=
    loops_alike h hproper
  unfold reconcileMemoriesFor
  rw [hvalid]
  split
  · exact .inl ⟨_, rfl, rfl⟩
  · split
    · exact .inl ⟨_, rfl, rfl⟩
    · rename_i source _
      split
      · exact .inl ⟨_, rfl, rfl⟩
      · rcases hloops with ⟨e, hloop, hloop'⟩ | ⟨t, t', hloop, hloop'⟩
        · unfold reconciliationStart at hloop hloop'
          simp only [hloop, hloop']
          exact .inl ⟨e, rfl, rfl⟩
        · obtain ⟨records, hrecords⟩ := readRecords_of_loop hloop
          obtain ⟨records', hrecords'⟩ := readRecords_of_loop hloop'
          have honly := reconcileProposals_memoriesOnly hloop
          have honly' := reconcileProposals_memoriesOnly hloop'
          unfold reconciliationStart at hloop hloop'
          simp only [hloop, hloop', hrecords, hrecords']
          cases completionJobId with
          | none => exact .inr ⟨_, _, rfl, rfl⟩
          | some jobId =>
            have halike : Alike (finishReconciliation t.db jobId batch.documentId source.revision)
                (finishReconciliation t'.db jobId batch.documentId source.revision) :=
              finishReconciliation_alike (honly'.jobs.trans honly.jobs.symm) (honly'.documents.trans honly.documents.symm)
            rcases halike with ⟨e, hfinish, hfinish'⟩ | ⟨u, u', hfinish, hfinish'⟩
            · simp only [hfinish, hfinish']
              exact .inl ⟨e, rfl, rfl⟩
            · simp only [hfinish, hfinish']
              exact .inr ⟨_, _, rfl, rfl⟩

theorem Renames.of_same {rename : String → String} {db₁' db₂' : Database} (h : Renames rename db db₁ db₂)
    (hsame₁ : SameMemories db₁ db₁') (hsame₂ : SameMemories db₂ db₂') : Renames rename db db₁' db₂' where
  stored := h.stored
  distinct := hsame₁.memories ▸ h.distinct
  memories := hsame₁.memories ▸ hsame₂.memories ▸ h.memories
  relations := hsame₁.relations ▸ hsame₂.relations ▸ h.relations

theorem SameMemories.symm (h : SameMemories db db') : SameMemories db' db :=
  ⟨h.memories.symm, h.embeddings.symm, h.relations.symm⟩

/-- A call with the repetitions and one without them come to the same memories and relations if and only if
    every new memory keeps its parents. -/
theorem dropRepeats_same_iff (h : Sound env db) (hproper : Proper env proposals)
    (hok₁ : reconcileMemoriesFor env now batch expectedRevision completionJobId proposals db = .ok (records₁, db₁))
    (hok₂ : reconcileMemoriesFor env now batch expectedRevision completionJobId (dropRepeats env [] proposals) db =
      .ok (records₂, db₂)) :
    SameUpToNames db db₁ db₂ ↔ LineageKept env [] [] (Names.start env batch db) proposals := by
  obtain ⟨t, hloop, _, hsame₁, _⟩ := reconcileMemoriesFor_loop hok₁
  obtain ⟨t', hloop', _, hsame₂, _⟩ := reconcileMemoriesFor_loop hok₂
  have hside := (Abreast.start h).sideBySide hproper.fresh hloop hloop'
  obtain ⟨_, _, _, hfinish⟩ := hside.finish
  constructor
  · rintro ⟨rename, hrenames⟩
    apply hside.kept hproper.admitted
    exact hfinish.sameUpToNames_iff.mp ⟨rename, hrenames.of_same hsame₁.symm hsame₂.symm⟩
  · intro hkept
    have hrows := hside.same ⟨fun _ => Iff.rfl, fun _ => Iff.rfl⟩ hkept
    exact ⟨id, hrows.renames.of_same hsame₁ hsame₂⟩

end Call

end Storage
