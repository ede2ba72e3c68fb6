-- SUMMARY: The flags of memories, their vectors and their relations agree, and no flag ever goes back.
import Supermemory.Storage.VersionLineage

/-!
# Memory flags

A memory is latest or not, forgotten or not, and its vector active or not. The flags
live in two tables and are written in three places, while reconciliation compares
content with a map it made before. `FlagsAgree` says how they hang together; it needs
that every relation joins two memories, which `Descent` has.
-/

namespace Storage

variable {env : Env} {db db' : Database}

structure FlagsAgree (env : Env) (db : Database) : Prop where
  embedded : ∀ m ∈ db.memories, ∃ e ∈ db.memoryEmbeddings, e.memoryId = m.id
  owned : ∀ e ∈ db.memoryEmbeddings, ∃ m ∈ db.memories, m.id = e.memoryId
  active : ∀ m ∈ db.memories, ∀ e ∈ db.memoryEmbeddings, e.memoryId = m.id → (e.active = true ↔ m.IsActive)
  forgotten : ∀ m ∈ db.memories, m.isForgotten = true → m.isLatest = false
  static : ∀ m ∈ db.memories, m.isStatic = true → m.isLatest = true
  updated : ∀ r ∈ db.memoryRelations, r.relation = "updates" →
    ∀ m ∈ db.memories, m.id = r.parentId → m.isLatest = false
  distinct : ∀ m ∈ db.memories, ∀ m' ∈ db.memories, m.IsActive → m'.IsActive → SameProfile m m' →
    normalizedMemory env m.content = normalizedMemory env m'.content → m = m'

theorem Memory.IsActive.latest {m : Memory} (h : m.IsActive) : ¬ m.isLatest = false := by
  rw [h.1]
  nofun

-- ---------------------------------------------------------------------------
-- Preservation
-- ---------------------------------------------------------------------------

namespace FlagsAgree

theorem start (h : (memoryMachine env).init db) : FlagsAgree env db := by
  obtain ⟨hmemories, hembeddings, _⟩ := h
  have hnone : ∀ m, ¬ m ∈ db.memories := by
    intro m
    rw [hmemories]
    exact Table.not_mem_empty
  constructor
  case owned =>
    intro e he
    rw [hembeddings] at he
    exact (Table.not_mem_empty he).elim
  case updated => exact fun _ _ _ m hm => (hnone m hm).elim
  all_goals exact fun m hm => (hnone m hm).elim

theorem keep (h : FlagsAgree env db) (hsame : SameMemories db db') : FlagsAgree env db' := by
  obtain ⟨hmemories, hembeddings, hrelations⟩ := hsame
  constructor
  all_goals simp only [hmemories, hembeddings, hrelations]
  case embedded => exact h.embedded
  case owned => exact h.owned
  case active => exact h.active
  case forgotten => exact h.forgotten
  case static => exact h.static
  case updated => exact h.updated
  case distinct => exact h.distinct

section Withdraw

variable {ids : List String} {f : Memory → Memory}

/-- A row that is active after a withdrawal is an untouched row. -/
theorem untouched {m : Memory} (hw : Withdraws db db' ids f) (hm : m ∈ db'.memories)
    (hlatest : ¬ m.isLatest = false) : m ∈ db.memories ∧ m.id ∉ ids := by
  obtain ⟨m₀, hm₀, rfl⟩ := (hw.memories m).mp hm
  by_cases hmem : m₀.id ∈ ids
  · rw [if_pos hmem] at hlatest
    exact absurd (hw.withdrawal.notLatest m₀) hlatest
  · rw [if_neg hmem]
    exact ⟨hm₀, hmem⟩

theorem withdraw (h : FlagsAgree env db) (hw : Withdraws db db' ids f) : FlagsAgree env db' := by
  have hembedding : ∀ e : MemoryEmbedding,
      (if e.memoryId ∈ ids then deactivated e else e).memoryId = e.memoryId := by
    intro e
    split <;> rfl
  constructor
  case embedded =>
    intro m hm
    obtain ⟨m₀, hm₀, rfl⟩ := (hw.memories m).mp hm
    obtain ⟨e, he, hid⟩ := h.embedded m₀ hm₀
    refine ⟨_, (hw.embeddings _).mpr ⟨e, he, rfl⟩, ?_⟩
    rw [hembedding, (hw.withdrawal.becomes_ite ids m₀).id, hid]
  case owned =>
    intro e he
    obtain ⟨e₀, he₀, rfl⟩ := (hw.embeddings e).mp he
    obtain ⟨m, hm, hid⟩ := h.owned e₀ he₀
    refine ⟨_, (hw.memories _).mpr ⟨m, hm, rfl⟩, ?_⟩
    rw [hembedding, (hw.withdrawal.becomes_ite ids m).id, hid]
  case active =>
    intro m hm e he hid
    obtain ⟨m₀, hm₀, rfl⟩ := (hw.memories m).mp hm
    obtain ⟨e₀, he₀, rfl⟩ := (hw.embeddings e).mp he
    rw [hembedding, (hw.withdrawal.becomes_ite ids m₀).id] at hid
    -- a memory and its vector are withdrawn together
    by_cases hmem : m₀.id ∈ ids
    · rw [if_pos hmem, if_pos (hid ▸ hmem)]
      have hlatest := hw.withdrawal.notLatest m₀
      simp [deactivated, Memory.IsActive, hlatest]
    · rw [if_neg hmem, if_neg (hid ▸ hmem)]
      exact h.active m₀ hm₀ e₀ he₀ hid
  case forgotten =>
    intro m hm hforgotten
    by_contra hlatest
    exact hlatest (h.forgotten m (untouched hw hm hlatest).1 hforgotten)
  case static =>
    intro m hm hstatic
    obtain ⟨m₀, hm₀, rfl⟩ := (hw.memories m).mp hm
    split at hstatic
    · rw [hw.withdrawal.notStatic] at hstatic
      cases hstatic
    · rename_i hmem
      rw [if_neg hmem]
      exact h.static m₀ hm₀ hstatic
  case updated =>
    intro r hr hupdates m hm hid
    rw [hw.relations] at hr
    by_contra hlatest
    exact hlatest (h.updated r hr hupdates m (untouched hw hm hlatest).1 hid)
  case distinct =>
    intro m hm m' hm' hactive hactive' hprofile hcontent
    exact h.distinct m (untouched hw hm hactive.latest).1 m' (untouched hw hm' hactive'.latest).1 hactive
      hactive' hprofile hcontent

end Withdraw

theorem add {m : Memory} {e : MemoryEmbedding} {links : List MemoryRelation} (h : FlagsAgree env db)
    (hd : Descent db) (ha : Adds env db db' m e links) : FlagsAgree env db' := by
  constructor
  case embedded =>
    intro m' hm'
    rcases (ha.memories m').mp hm' with hm' | rfl
    · obtain ⟨e', he', hid⟩ := h.embedded m' hm'
      exact ⟨e', (ha.embeddings e').mpr (.inl he'), hid⟩
    · exact ⟨e, (ha.embeddings e).mpr (.inr rfl), ha.embedded.1⟩
  case owned =>
    intro e' he'
    rcases (ha.embeddings e').mp he' with he' | rfl
    · obtain ⟨m', hm', hid⟩ := h.owned e' he'
      exact ⟨m', (ha.memories m').mpr (.inl hm'), hid⟩
    · exact ⟨m, (ha.memories m).mpr (.inr rfl), ha.embedded.1.symm⟩
  case active =>
    intro m' hm' e' he' hid
    rcases (ha.memories m').mp hm' with hm' | rfl
    · rcases (ha.embeddings e').mp he' with he' | rfl
      · exact h.active m' hm' e' he' hid
      · exact absurd (hid.symm.trans ha.embedded.1) (ha.fresh m' hm')
    · rcases (ha.embeddings e').mp he' with he' | rfl
      · obtain ⟨m₀, hm₀, hid₀⟩ := h.owned e' he'
        exact absurd (hid₀.trans hid) (ha.fresh m₀ hm₀)
      · exact iff_of_true ha.embedded.2 ha.isActive
  case forgotten =>
    intro m' hm' hforgotten
    rcases (ha.memories m').mp hm' with hm' | rfl
    · exact h.forgotten m' hm' hforgotten
    · rw [ha.isActive.2] at hforgotten
      cases hforgotten
  case static =>
    intro m' hm' hstatic
    rcases (ha.memories m').mp hm' with hm' | rfl
    · exact h.static m' hm' hstatic
    · exact ha.isActive.1
  case updated =>
    intro r hr hupdates m' hm' hid
    -- the parents of both old and new relations are old memories
    obtain ⟨p, hp, hpid, hplatest⟩ : ∃ p ∈ db.memories, p.id = r.parentId ∧ p.isLatest = false := by
      rcases (ha.relations r).mp hr with hr | hr
      · obtain ⟨p, hp, _, _, hpid, _⟩ := hd.related r hr
        exact ⟨p, hp, hpid, h.updated r hr hupdates p hp hpid⟩
      · obtain ⟨_, p, hp, hpid, _, hplatest⟩ := ha.linked r hr
        exact ⟨p, hp, hpid, hplatest hupdates⟩
    rcases (ha.memories m').mp hm' with hm' | rfl
    · exact Table.eq_of_key hm' hp (hid.trans hpid.symm) ▸ hplatest
    · exact absurd (hpid.trans hid.symm) (ha.fresh p hp)
  case distinct =>
    intro m₁ hm₁ m₂ hm₂ hactive₁ hactive₂ hprofile hcontent
    rcases (ha.memories m₁).mp hm₁ with hm₁ | rfl
    · rcases (ha.memories m₂).mp hm₂ with hm₂ | rfl
      · exact h.distinct m₁ hm₁ m₂ hm₂ hactive₁ hactive₂ hprofile hcontent
      · exact absurd hcontent (ha.distinct m₁ hm₁ hactive₁ hprofile)
    · rcases (ha.memories m₂).mp hm₂ with hm₂ | rfl
      · exact absurd hcontent.symm (ha.distinct m₂ hm₂ hactive₂ hprofile.symm)
      · rfl

theorem step (h : FlagsAgree env db) (hd : Descent db) (hstep : MemoryStep env db db') :
    FlagsAgree env db' := by
  cases hstep with
  | keep hsame => exact h.keep hsame
  | withdraw hw => exact h.withdraw hw
  | add ha => exact h.add hd ha

end FlagsAgree

theorem flagsAgree_of_reachable (h : (memoryMachine env).Reachable db) : FlagsAgree env db :=
  (memory_invariant (I := fun db => Descent db ∧ FlagsAgree env db)
    (fun _ hinit => ⟨Descent.start hinit, FlagsAgree.start hinit⟩)
    (fun _ _ hI hstep => ⟨hI.1.step hstep, hI.2.step hI.1 hstep⟩) h).2

-- ---------------------------------------------------------------------------
-- Runs
-- ---------------------------------------------------------------------------

/-- What the memory tables of one database can become. -/
structure Evolves (db db' : Database) : Prop where
  memories : ∀ m ∈ db.memories, ∃ m' ∈ db'.memories, m.Becomes m'
  embeddings : ∀ e ∈ db.memoryEmbeddings, ∃ e' ∈ db'.memoryEmbeddings, e'.memoryId = e.memoryId ∧
    (e'.active = true → e.active = true)

namespace Evolves

theorem refl (db : Database) : Evolves db db :=
  ⟨fun m hm => ⟨m, hm, .refl m⟩, fun e he => ⟨e, he, rfl, fun h => h⟩⟩

theorem trans {db₁ db₂ db₃ : Database} (h : Evolves db₁ db₂) (h' : Evolves db₂ db₃) : Evolves db₁ db₃ where
  memories m hm := by
    obtain ⟨m₂, hm₂, hbecomes⟩ := h.memories m hm
    obtain ⟨m₃, hm₃, hbecomes'⟩ := h'.memories m₂ hm₂
    exact ⟨m₃, hm₃, hbecomes.trans hbecomes'⟩
  embeddings e he := by
    obtain ⟨e₂, he₂, hid, hactive⟩ := h.embeddings e he
    obtain ⟨e₃, he₃, hid', hactive'⟩ := h'.embeddings e₂ he₂
    exact ⟨e₃, he₃, hid'.trans hid, hactive ∘ hactive'⟩

theorem of_step (h : MemoryStep env db db') : Evolves db db' where
  memories _ hm := h.becomes hm
  embeddings e he := by
    cases h with
    | keep h => exact ⟨e, h.embeddings ▸ he, rfl, fun h => h⟩
    | @withdraw ids f h =>
      refine ⟨_, (h.embeddings _).mpr ⟨e, he, rfl⟩, ?_⟩
      split
      · exact ⟨rfl, nofun⟩
      · exact ⟨rfl, fun h => h⟩
    | add h => exact ⟨e, (h.embeddings e).mpr (.inl he), rfl, fun h => h⟩

theorem of_steps (h : Relation.ReflTransGen (MemoryStep env) db db') : Evolves db db' := by
  induction h with
  | refl => exact refl _
  | tail _ hone ih => exact ih.trans (of_step hone)

theorem of_run (hs : (memoryMachine env).Reachable db) (h : (memoryMachine env).Run db db') :
    Evolves db db' := by
  refine h.relation (R := Evolves) refl (fun _ _ _ => trans) (fun db event db' _ hstep => ?_) hs
  exact of_steps (memoryMachine_steps hstep)

end Evolves

/-- Every memory has one vector, which is active when the memory is latest and not forgotten. A
    forgotten memory is not latest, a static one is, and one that another memory updates is not. No
    two active memories of a profile have the same content. Along a run `is_latest` and `active` only
    go down, and `is_forgotten` only up. -/
theorem memory_flags_agree (h : (memoryMachine env).Reachable db) :
    (∀ m ∈ db.memories, ∃! e, e ∈ db.memoryEmbeddings ∧ e.memoryId = m.id) ∧
    (∀ m ∈ db.memories, ∀ e ∈ db.memoryEmbeddings, e.memoryId = m.id →
      (e.active = true ↔ m.isLatest = true ∧ m.isForgotten = false)) ∧
    (∀ m ∈ db.memories, (m.isForgotten = true → m.isLatest = false) ∧
      (m.isStatic = true → m.isLatest = true)) ∧
    (∀ r ∈ db.memoryRelations, r.relation = "updates" → ∀ m ∈ db.memories, m.id = r.parentId →
      m.isLatest = false) ∧
    (∀ m ∈ db.memories, ∀ m' ∈ db.memories, m.IsActive → m'.IsActive → SameProfile m m' →
      normalizedMemory env m.content = normalizedMemory env m'.content → m = m') ∧
    ∀ db', (memoryMachine env).Run db db' →
      (∀ m ∈ db.memories, ∃ m' ∈ db'.memories, m'.id = m.id ∧
        (m'.isLatest = true → m.isLatest = true) ∧ (m.isForgotten = true → m'.isForgotten = true)) ∧
      (∀ e ∈ db.memoryEmbeddings, ∃ e' ∈ db'.memoryEmbeddings, e'.memoryId = e.memoryId ∧
        (e'.active = true → e.active = true)) := by
  have hflags := flagsAgree_of_reachable h
  refine ⟨?_, hflags.active, ?_, hflags.updated, hflags.distinct, ?_⟩
  · intro m hm
    obtain ⟨e, he, hid⟩ := hflags.embedded m hm
    exact ⟨e, ⟨he, hid⟩, fun e' he' => Table.eq_of_key he'.1 he (he'.2.trans hid.symm)⟩
  · exact fun m hm => ⟨hflags.forgotten m hm, hflags.static m hm⟩
  · intro db' hrun
    have hevolves := Evolves.of_run h hrun
    refine ⟨fun m hm => ?_, hevolves.embeddings⟩
    obtain ⟨m', hm', hbecomes⟩ := hevolves.memories m hm
    exact ⟨m', hm', hbecomes.id, hbecomes.latest, hbecomes.forgotten⟩

theorem memory_flags_agree_updatedOnce : ∃ db, updatedOnce = some db ∧
    ∃ r ∈ db.memoryRelations, r.relation = "updates" ∧ ∃ m ∈ db.memories, m.id = r.parentId ∧
      m.isLatest = false := by
  obtain ⟨db, hdb⟩ : ∃ db, updatedOnce = some db := Option.isSome_iff_exists.mp (by decide +kernel)
  have hupdates : ∀ db ∈ updatedOnce, ∃ r ∈ db.memoryRelations.rows, r.relation = "updates" ∧
      ∃ m ∈ db.memories.rows, m.id = r.parentId := by decide +kernel
  obtain ⟨r, hr, hrelation, m, hm, hid⟩ := hupdates db hdb
  have hflags := memory_flags_agree (memoriesAfter_reachable hdb)
  exact ⟨db, hdb, r, hr, hrelation, m, hm, hid, hflags.2.2.2.1 r hr hrelation m hm hid⟩

end Storage
