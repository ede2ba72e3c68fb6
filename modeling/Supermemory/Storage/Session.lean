-- SUMMARY: The store under coordinators that give a handle back when its job ends, and lose all handles on opening.
import Supermemory.Storage.Consistency

/-!
# Sessions

The coordinators use a handle only between its claim and the operation that ends
its job, and a process that opens the store has none of the handles of the process
before it. A session is the store with the handles that may still be used. Within
that, calls come in any order, which includes the order of the coordinators.
-/

namespace Storage

/-- The store and the handles that may still be used. -/
structure Session where
  store : System
  live : List ClaimedJob
  liveMemory : List ClaimedMemoryJob
  deriving DecidableEq

/-- The handle is live. -/
def Call.Live (s : Session) (call : Call) : Prop :=
  (∀ job ∈ call.job, job ∈ s.live) ∧ (∀ job ∈ call.memoryJob, job ∈ s.liveMemory)

instance (s : Session) (call : Call) : Decidable (call.Live s) := inferInstanceAs (Decidable (_ ∧ _))

/-- The handle whose job a call ends when it succeeds: completed, failed, or deleted. -/
def Call.ended : Call → Option ClaimedJob
  | .completeJob job _ | .completeEmbeddedJob job _ _ _
  | .completeEmbeddedJobWithMemoryExtraction job _ _ _ | .failJob job _
  | .deleteEmptyDocument job => some job
  | _ => none

/-- The memory handle whose job a call ends when it succeeds: completed, failed, or queued again. -/
def Call.endedMemory : Call → Option ClaimedMemoryJob
  | .completeMemoryJob job | .retryMemoryJob job _ _ _ => some job
  | .reconcileMemories _ _ completion _ => completion
  | _ => none

/-- The live handles after a call: a new one is added, one whose job ended is given back, and
    opening loses all of them. -/
def liveAfter {κ : Type} [DecidableEq κ] (claimed : Answer → Option κ) (ended : Option κ)
    (live : List κ) : Except StorageError Answer → List κ
  | .error _ => live
  | .ok (.opened _) => []
  | .ok answer => (claimed answer).toList ++ live.filter fun job => some job ≠ ended

/-- The session after a call. -/
def Session.after (s : Session) (call : Call) (r : Except StorageError Answer × Database) : Session :=
  { store := s.store.after call r
    live := liveAfter Answer.job call.ended s.live r.1
    liveMemory := liveAfter Answer.memoryJob call.endedMemory s.liveMemory r.1 }

/-- The store under calls that use live handles only. -/
def sessions (env : Env) : Machine Session (Time × Call) where
  init s := s.store.Empty ∧ s.live = [] ∧ s.liveMemory = []
  step s event :=
    if event.2.Live s then some (s.after event.2 (event.2.run env event.1 s.store.db)) else none

variable {env : Env} {s s' : Session} {event : Time × Call}

theorem sessions_step :
    (sessions env).step s event = some s' ↔
      event.2.Live s ∧ s' = s.after event.2 (event.2.run env event.1 s.store.db) := by
  simp only [sessions]
  split <;> simp_all [eq_comm]

/-- A handle is live after a call that claimed it, or after one that did not end its job. -/
theorem mem_liveAfter {κ : Type} [DecidableEq κ] {claimed : Answer → Option κ} {ended : Option κ}
    {live : List κ} {r : Except StorageError Answer} {k : κ} (h : k ∈ liveAfter claimed ended live r) :
    (∃ answer, r = .ok answer ∧ claimed answer = some k) ∨
      k ∈ live ∧ ∀ answer, r = .ok answer → some k ≠ ended ∧ ∀ id, answer ≠ .opened id := by
  unfold liveAfter at h
  split at h
  · exact .inr ⟨h, nofun⟩
  · cases h
  · rename_i answer hopened
    rcases List.mem_append.mp h with hclaimed | hkept
    · exact .inl ⟨answer, rfl, by simpa using hclaimed⟩
    · obtain ⟨hlive, hended⟩ := List.mem_filter.mp hkept
      refine .inr ⟨hlive, ?_⟩
      rintro _ ⟨⟩
      exact ⟨by simpa using hended, hopened⟩

/-- The live handles are of distinct rows if no live handle is of the row of a new one. -/
theorem alone_liveAfter {κ : Type} [DecidableEq κ] {id : κ → String} {claimed : Answer → Option κ}
    {ended : Option κ} {live : List κ} {r : Except StorageError Answer}
    (halone : ∀ k ∈ live, ∀ k' ∈ live, id k' = id k → k' = k)
    (hnew : ∀ answer k, r = .ok answer → claimed answer = some k → ∀ k' ∈ live, id k' ≠ id k) :
    ∀ k ∈ liveAfter claimed ended live r, ∀ k' ∈ liveAfter claimed ended live r, id k' = id k → k' = k := by
  intro k hk k' hk' hid
  rcases mem_liveAfter hk with ⟨answer, hr, hclaimed⟩ | ⟨hold, _⟩
  · rcases mem_liveAfter hk' with ⟨answer', hr', hclaimed'⟩ | ⟨hold', _⟩
    · obtain rfl := Except.ok.inj (hr.symm.trans hr')
      exact Option.some_inj.mp (hclaimed'.symm.trans hclaimed)
    · exact absurd hid (hnew answer k hr hclaimed k' hold')
  · rcases mem_liveAfter hk' with ⟨answer', hr', hclaimed'⟩ | ⟨hold', _⟩
    · exact absurd hid.symm (hnew answer' k' hr' hclaimed' k hold)
    · exact halone k hold k' hold' hid

end Storage
