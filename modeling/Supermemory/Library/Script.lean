-- SUMMARY: Scripts of statements that change named entries one by one: what a run tells of where it started.
import Mathlib.Logic.Basic

/-!
# Scripts

A statement of a script looks at the entries of some names and fails, or it changes every
entry on its own. Where a statement that succeeds can be undone entry by entry, so can a
script: two runs that end with the same entry under a name started with the same one.
-/

namespace Script

/-- Statements `σ` on entries `ε` under names `ν`. -/
structure Language (σ ν ε : Type*) where
  enabled : σ → (ν → ε) → Bool
  update : σ → ν → ε → ε
  /-- The names whose entries decide whether a statement succeeds. -/
  reads : σ → List ν
  /-- The names of which a statement that succeeds has seen the entry. -/
  fixes : σ → List ν
  enabled_congr : ∀ {s m p}, (∀ n ∈ reads s, m n = p n) → enabled s m = enabled s p
  fixes_eq : ∀ {s m p n}, enabled s m = true → enabled s p = true → n ∈ fixes s → m n = p n
  update_injective : ∀ {s m p n}, enabled s m = true → enabled s p = true →
    update s n (m n) = update s n (p n) → m n = p n

variable {σ ν ε : Type*} (L : Language σ ν ε)

/-- One statement. -/
def step (m : ν → ε) (s : σ) : Option (ν → ε) := if L.enabled s m then some fun n => L.update s n (m n) else none

def run (script : List σ) (m : ν → ε) : Option (ν → ε) := script.foldlM (step L) m

variable {L} {s : σ} {script rest : List σ} {m m' p p' : ν → ε} {n : ν}

theorem step_eq_some : step L m s = some m' ↔ L.enabled s m = true ∧ m' = fun n => L.update s n (m n) := by
  rw [step]
  cases L.enabled s m with
  | false => simp
  | true => simp [eq_comm]

theorem run_cons : run L (s :: script) m = some m' ↔
    L.enabled s m = true ∧ run L script (fun n => L.update s n (m n)) = some m' := by
  rw [run, List.foldlM_cons]
  cases hstep : step L m s with
  | none =>
    have hfails : L.enabled s m ≠ true := by
      intro henabled
      rw [step, if_pos henabled] at hstep
      cases hstep
    simp [hfails]
  | some t =>
    obtain ⟨henabled, rfl⟩ := step_eq_some.mp hstep
    simp [henabled, run]

theorem run_append : run L (script ++ rest) m = (run L script m).bind (run L rest) := by
  rw [run, List.foldlM_append]
  rfl

/-- A run changes every entry on its own. -/
theorem run_entry (h : run L script m = some m') (n : ν) :
    m' n = script.foldl (fun e s => L.update s n e) (m n) := by
  induction script generalizing m with
  | nil =>
    cases h
    rfl
  | cons s rest ih =>
    exact ih (run_cons.mp h).2

/-- The names that no statement changes keep their entries. -/
theorem run_frame (h : run L script m = some m') (hframe : ∀ s ∈ script, ∀ e, L.update s n e = e) : m' n = m n := by
  rw [run_entry h n]
  clear h
  generalize m n = e
  induction script generalizing e with
  | nil => rfl
  | cons s rest ih =>
    rw [List.foldl_cons, hframe s List.mem_cons_self e]
    exact ih (fun t ht => hframe t (List.mem_cons_of_mem s ht)) e

/-- Entries that agree before two runs agree after them. -/
theorem run_agrees (hm : run L script m = some m') (hp : run L script p = some p') (h : m n = p n) : m' n = p' n := by
  rw [run_entry hm n, run_entry hp n, h]

/-- Two runs started with the same entry under a name that they end with the same entry under, or look at. -/
theorem run_injective (hm : run L script m = some m') (hp : run L script p = some p')
    (h : m' n = p' n ∨ ∃ s ∈ script, n ∈ L.fixes s) : m n = p n := by
  induction script generalizing m p with
  | nil =>
    cases hm
    cases hp
    rcases h with h | ⟨s, hs, -⟩
    · exact h
    · exact absurd hs List.not_mem_nil
  | cons s rest ih =>
    obtain ⟨hsm, hrestm⟩ := run_cons.mp hm
    obtain ⟨hsp, hrestp⟩ := run_cons.mp hp
    by_cases hfixes : n ∈ L.fixes s
    · exact L.fixes_eq hsm hsp hfixes
    · apply L.update_injective hsm hsp
      apply ih hrestm hrestp
      rcases h with h | ⟨t, ht, hfixed⟩
      · exact .inl h
      · cases ht with
        | head => exact absurd hfixed hfixes
        | tail _ ht => exact .inr ⟨t, ht, hfixed⟩

/-- A script that runs from some entries runs from all others that agree on the names that it reads. -/
theorem run_congr {N : ν → Prop} (hp : run L script p = some p') (hreads : ∀ s ∈ script, ∀ n ∈ L.reads s, N n)
    (h : ∀ n, N n → m n = p n) : ∃ m', run L script m = some m' := by
  induction script generalizing m p with
  | nil => exact ⟨m, rfl⟩
  | cons s rest ih =>
    obtain ⟨hsp, hrestp⟩ := run_cons.mp hp
    have hsm : L.enabled s m = true := by
      rw [L.enabled_congr fun n hn => h n (hreads s List.mem_cons_self n hn)]
      exact hsp
    have hafter : ∀ n, N n → L.update s n (m n) = L.update s n (p n) := by
      intro n hn
      rw [h n hn]
    obtain ⟨m', hrestm⟩ := ih hrestp (fun t ht => hreads t (List.mem_cons_of_mem s ht)) hafter
    exact ⟨m', run_cons.mpr ⟨hsm, hrestm⟩⟩

end Script
