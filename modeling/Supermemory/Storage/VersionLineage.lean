-- SUMMARY: The versions of a memory form a line from its root, and the relation graph is acyclic.
import Supermemory.Library.Ancestry
import Supermemory.Storage.MemorySteps

/-!
# Version lineage

A new memory takes its version and root from the first parent that resolves, and no
walk checks them. That they are right all the same follows from one fact that every
step keeps: each memory starts a line or continues the line of a memory of its profile.
-/

namespace Storage

variable {env : Env} {now : Time} {db db' : Database}

/-- The memory that `parent_memory_id` names. -/
def parentMemory (db : Database) (m : Memory) : Option Memory :=
  m.parentMemoryId.bind db.memories.find

/-- Some row of `memory_relations` leads from one memory to the other. -/
def RelatesTo (db : Database) (parentId childId : String) : Prop :=
  ∃ r ∈ db.memoryRelations, r.parentId = parentId ∧ r.childId = childId

structure Descent (db : Database) : Prop where
  descends : ∀ m ∈ db.memories, Descends db m
  related : ∀ r ∈ db.memoryRelations, ∃ p ∈ db.memories, ∃ c ∈ db.memories,
    p.id = r.parentId ∧ c.id = r.childId ∧ SameProfile p c
  acyclic : Acyclic (RelatesTo db)

-- ---------------------------------------------------------------------------
-- Preservation
-- ---------------------------------------------------------------------------

theorem SameProfile.trans {m₁ m₂ m₃ : Memory} (h : SameProfile m₁ m₂) (h' : SameProfile m₂ m₃) :
    SameProfile m₁ m₃ := ⟨h.1.trans h'.1, h.2.trans h'.2⟩

theorem SameProfile.symm {m m' : Memory} (h : SameProfile m m') : SameProfile m' m := ⟨h.1.symm, h.2.symm⟩

/-- A line goes on when the rows of its memories are rewritten. -/
theorem Descends.becomes {m m' : Memory} (h : Descends db m) (hm : m.Becomes m')
    (hrows : ∀ p ∈ db.memories, ∃ p' ∈ db'.memories, p.Becomes p') : Descends db' m' := by
  rcases h with ⟨hparent, hroot, hversion⟩ | ⟨p, hp, hprofile, hparent, hversion, hroot⟩
  · exact .inl ⟨hm.parentMemoryId.trans hparent, hm.rootMemoryId.trans hroot, hm.version.trans hversion⟩
  · obtain ⟨p', hp', hbecomes⟩ := hrows p hp
    refine .inr ⟨p', hp', hbecomes.profile.trans (hprofile.trans hm.profile.symm), ?_, ?_, ?_⟩
    · rw [hm.parentMemoryId, hparent, hbecomes.id]
    · rw [hm.version, hversion, hbecomes.version]
    · rw [hm.rootMemoryId, hroot, hbecomes.rootMemoryId, hbecomes.id]

namespace Descent

theorem start (h : (memoryMachine env).init db) : Descent db := by
  obtain ⟨hmemories, _, hrelations⟩ := h
  constructor
  case descends =>
    intro m hm
    rw [hmemories] at hm
    exact (Table.not_mem_empty hm).elim
  case related =>
    intro r hr
    rw [hrelations] at hr
    exact (Table.not_mem_empty hr).elim
  case acyclic =>
    apply Acyclic.of_empty
    rintro a b ⟨r, hr, _⟩
    rw [hrelations] at hr
    exact Table.not_mem_empty hr

/-- Rewriting the rows of memories keeps the lines and the relations. -/
theorem rewrite (h : Descent db) (hrelations : db'.memoryRelations = db.memoryRelations)
    (hold : ∀ m' ∈ db'.memories, ∃ m ∈ db.memories, m.Becomes m')
    (hrows : ∀ m ∈ db.memories, ∃ m' ∈ db'.memories, m.Becomes m') : Descent db' where
  descends m' hm' := by
    obtain ⟨m, hm, hbecomes⟩ := hold m' hm'
    exact (h.descends m hm).becomes hbecomes hrows
  related r hr := by
    rw [hrelations] at hr
    obtain ⟨p, hp, c, hc, hpid, hcid, hprofile⟩ := h.related r hr
    obtain ⟨p', hp', hpbecomes⟩ := hrows p hp
    obtain ⟨c', hc', hcbecomes⟩ := hrows c hc
    exact ⟨p', hp', c', hc', hpbecomes.id.trans hpid, hcbecomes.id.trans hcid,
      hpbecomes.profile.trans (hprofile.trans hcbecomes.profile.symm)⟩
  acyclic := by
    unfold RelatesTo
    rw [hrelations]
    exact h.acyclic

/-- A new memory has no children yet, so the relations to its parents close no cycle. -/
theorem add {m : Memory} {e : MemoryEmbedding} {links : List MemoryRelation} (h : Descent db)
    (hadds : Adds env db db' m e links) : Descent db' := by
  have hrows : ∀ p ∈ db.memories, ∃ p' ∈ db'.memories, p.Becomes p' :=
    fun p hp => ⟨p, (hadds.memories p).mpr (.inl hp), .refl p⟩
  constructor
  case descends =>
    intro m' hm'
    rcases (hadds.memories m').mp hm' with hm' | rfl
    · exact (h.descends m' hm').becomes (.refl m') hrows
    · exact hadds.descends.becomes (.refl m') hrows
  case related =>
    intro r hr
    rcases (hadds.relations r).mp hr with hr | hr
    · obtain ⟨p, hp, c, hc, hids⟩ := h.related r hr
      exact ⟨p, (hadds.memories p).mpr (.inl hp), c, (hadds.memories c).mpr (.inl hc), hids⟩
    · obtain ⟨hchild, p, hp, hpid, hprofile, _⟩ := hadds.linked r hr
      exact ⟨p, (hadds.memories p).mpr (.inl hp), m, (hadds.memories m).mpr (.inr rfl), hpid, hchild.symm,
        hprofile⟩
  case acyclic =>
    apply h.acyclic.add_sink (s := m.id)
    · rintro b ⟨r, hr, hparent, _⟩
      rcases (hadds.relations r).mp hr with hr | hr
      · obtain ⟨p, hp, _, _, hpid, _⟩ := h.related r hr
        exact hadds.fresh p hp (hpid.trans hparent)
      · obtain ⟨_, p, hp, hpid, _⟩ := hadds.linked r hr
        exact hadds.fresh p hp (hpid.trans hparent)
    · rintro a b ⟨r, hr, hparent, hchild⟩ hne
      rcases (hadds.relations r).mp hr with hr | hr
      · exact ⟨r, hr, hparent, hchild⟩
      · exact absurd ((hadds.linked r hr).1.symm.trans hchild).symm hne

theorem step (h : Descent db) (hstep : MemoryStep env db db') : Descent db' := by
  cases hstep with
  | keep hsame =>
    apply h.rewrite hsame.relations
    · exact fun m hm => ⟨m, hsame.memories ▸ hm, .refl m⟩
    · exact fun m hm => ⟨m, hsame.memories ▸ hm, .refl m⟩
  | @withdraw ids f hwithdraws =>
    apply h.rewrite hwithdraws.relations
    · intro m' hm'
      obtain ⟨m, hm, rfl⟩ := (hwithdraws.memories m').mp hm'
      exact ⟨m, hm, hwithdraws.withdrawal.becomes_ite ids m⟩
    · exact fun m hm => hwithdraws.becomes hm
  | add hadds => exact h.add hadds

/-- The memories form a lineage, labelled with their roots. -/
theorem lineage (h : Descent db) :
    Lineage (· ∈ db.memories) (parentMemory db) Memory.version Memory.id
      (fun m => m.rootMemoryId.getD m.id) where
  cases m hm := by
    rcases h.descends m hm with ⟨hparent, hroot, hversion⟩ | ⟨p, hp, _, hparent, hversion, hroot⟩
    · exact .inl ⟨by simp [parentMemory, hparent], hversion, by simp [hroot]⟩
    · refine .inr ⟨p, hp, ?_, hversion, by simp [hroot]⟩
      simpa [parentMemory, hparent] using Table.find_eq_some.mpr ⟨hp, rfl⟩

end Descent

theorem descent_of_reachable (h : (memoryMachine env).Reachable db) : Descent db :=
  memory_invariant (fun _ => Descent.start) (fun _ _ => Descent.step) h

-- ---------------------------------------------------------------------------
-- The forest
-- ---------------------------------------------------------------------------

/-- A memory has version one when it has no parent, and then no root either. Otherwise its parent is
    of the same profile and one version older, and walking up ends at the root the row names. No row
    of `memory_relations` leaves its profile, and no path of them returns. -/
theorem version_lineage_forest (h : (memoryMachine env).Reachable db) :
    (∀ m ∈ db.memories,
      (m.version = 1 ↔ m.parentMemoryId = none) ∧ (m.version = 1 ↔ m.rootMemoryId = none) ∧
      (m.version ≠ 1 →
        (∃ p, parentMemory db m = some p ∧ SameProfile p m ∧ m.version = p.version + 1) ∧
        ∃ r, ancestor (parentMemory db) (m.version - 1) m = some r ∧ m.rootMemoryId = some r.id ∧
          r.version = 1)) ∧
    (∀ r ∈ db.memoryRelations, ∃ p ∈ db.memories, ∃ c ∈ db.memories,
      p.id = r.parentId ∧ c.id = r.childId ∧ SameProfile p c) ∧
    Acyclic (RelatesTo db) := by
  have hdescent := descent_of_reachable h
  refine ⟨?_, hdescent.related, hdescent.acyclic⟩
  intro m hm
  rcases hdescent.descends m hm with ⟨hparent, hroot, hversion⟩ | ⟨p, hp, hprofile, hparent, hversion, hroot⟩
  · simp [hparent, hroot, hversion]
  · have hpos := hdescent.lineage.generation_pos hp
    have hne : m.version ≠ 1 := by
      rw [hversion]
      exact Nat.succ_ne_succ_iff.mpr (Nat.ne_of_gt hpos)
    refine ⟨by simp [hne, hparent], by simp [hne, hroot], fun _ => ⟨⟨p, ?_, hprofile, hversion⟩, ?_⟩⟩
    · simpa [parentMemory, hparent] using Table.find_eq_some.mpr ⟨hp, rfl⟩
    · obtain ⟨r, hr, hwalk, hone, hname⟩ := hdescent.lineage.founder hm
      refine ⟨r, hwalk, ?_, hone⟩
      simpa [hroot] using hname

theorem version_lineage_forest_updatedOnce : ∃ db, updatedOnce = some db ∧ ∃ m ∈ db.memories, m.version = 2 ∧
    ∃ r, ancestor (parentMemory db) 1 m = some r ∧ m.rootMemoryId = some r.id ∧ r.version = 1 := by
  obtain ⟨db, hdb⟩ : ∃ db, updatedOnce = some db := Option.isSome_iff_exists.mp (by decide +kernel)
  have htwo : ∀ db ∈ updatedOnce, ∃ m ∈ db.memories.rows, m.version = 2 := by decide +kernel
  obtain ⟨m, hm, hversion⟩ := htwo db hdb
  have hforest := (version_lineage_forest (memoriesAfter_reachable hdb)).1 m hm
  obtain ⟨_, hroot⟩ := hforest.2.2 (by simp [hversion])
  rw [hversion] at hroot
  exact ⟨db, hdb, m, hm, hversion, hroot⟩

end Storage
