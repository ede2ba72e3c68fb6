-- SUMMARY: Machines with a guarded, executable step: reachable states, invariants, restriction, simulation and replay.
import Mathlib.Tactic.TypeStar

/-!
# Machines

A machine is a set of initial states and a step function that is undefined where
an event is not enabled. An invariant is proved once for the start and once for a
step. A machine whose events are restricted reaches fewer states, and a machine
whose steps another one can follow has its states among those of the other.
-/

/-- A transition system with a guarded, executable step. -/
structure Machine (σ ε : Type*) where
  init : σ → Prop
  step : σ → ε → Option σ

namespace Machine

variable {σ τ ε ε' : Type*} {M : Machine σ ε}

/-- The states of the runs of a machine. -/
inductive Reachable (M : Machine σ ε) : σ → Prop where
  | start {s : σ} (h : M.init s) : Reachable M s
  | step {s s' : σ} {e : ε} (h : Reachable M s) (hstep : M.step s e = some s') : Reachable M s'

namespace Reachable

/-- What holds at the start and is preserved by every step from a reachable state holds in
    every reachable state. -/
theorem invariant {I : σ → Prop} (hinit : ∀ s, M.init s → I s)
    (hstep : ∀ s e s', M.Reachable s → I s → M.step s e = some s' → I s') {s : σ}
    (h : M.Reachable s) : I s := by
  induction h with
  | start h => exact hinit _ h
  | step h hs ih => exact hstep _ _ _ h ih hs

/-- A machine reaches only what a machine that follows its steps reaches. -/
theorem simulate {N : Machine τ ε'} {f : σ → τ} (hinit : ∀ s, M.init s → N.init (f s))
    (hstep : ∀ s e s', M.step s e = some s' → f s' = f s ∨ ∃ e', N.step (f s) e' = some (f s'))
    {s : σ} (h : M.Reachable s) : N.Reachable (f s) := by
  induction h with
  | start h => exact .start (hinit _ h)
  | @step s s' e _ hs ih =>
    rcases hstep s e s' hs with heq | ⟨e', he⟩
    · exact heq ▸ ih
    · exact .step ih he

end Reachable

/-! ## Restriction -/

section Restrict

variable {allowed : σ → ε → Prop} [∀ s e, Decidable (allowed s e)]

/-- The machine whose steps all meet a condition on the state before them. -/
def restrict (M : Machine σ ε) (allowed : σ → ε → Prop) [∀ s e, Decidable (allowed s e)] :
    Machine σ ε where
  init := M.init
  step s e := if allowed s e then M.step s e else none

theorem restrict_step {s s' : σ} {e : ε} :
    (M.restrict allowed).step s e = some s' ↔ allowed s e ∧ M.step s e = some s' := by
  unfold restrict
  by_cases h : allowed s e <;> simp [h]

theorem Reachable.of_restrict {s : σ} (h : (M.restrict allowed).Reachable s) : M.Reachable s := by
  induction h with
  | start h => exact .start h
  | step _ hs ih => exact .step ih (restrict_step.mp hs).2

end Restrict

/-! ## Replay -/

/-- Runs a list of events, if each of them is enabled. -/
def replay (M : Machine σ ε) : σ → List ε → Option σ
  | s, [] => some s
  | s, e :: rest => (M.step s e).bind fun s' => replay M s' rest

theorem Reachable.replay {s s' : σ} {events : List ε} (h : M.Reachable s)
    (hr : M.replay s events = some s') : M.Reachable s' := by
  induction events generalizing s with
  | nil =>
    obtain rfl : s = s' := by simpa [Machine.replay] using hr
    exact h
  | cons e rest ih =>
    obtain ⟨t, ht, hrest⟩ := Option.bind_eq_some_iff.mp hr
    exact ih (.step h ht) hrest

/-- What every event of a kind keeps, a list of them keeps. -/
theorem replay_keeps {I : σ → Prop} {own : ε → Prop}
    (hkeeps : ∀ s e s', I s → own e → M.step s e = some s' → I s') {s s' : σ} {events : List ε}
    (hs : I s) (hown : ∀ e ∈ events, own e) (hr : M.replay s events = some s') : I s' := by
  induction events generalizing s with
  | nil =>
    obtain rfl : s = s' := Option.some_inj.mp hr
    exact hs
  | cons e rest ih =>
    obtain ⟨t, ht, hrest⟩ := Option.bind_eq_some_iff.mp hr
    have ht' := hkeeps s e t hs (hown e List.mem_cons_self) ht
    exact ih ht' (fun e' he' => hown e' (List.mem_cons_of_mem e he')) hrest

/-! ## Runs that come to an end -/

section Rank

/-- Events that lower the rank run out. -/
theorem Reachable.replay_length_le (own : ε → Prop) (rank : σ → Nat)
    (hlowers : ∀ s e s', M.Reachable s → own e → M.step s e = some s' → rank s' < rank s) {s s' : σ}
    {events : List ε} (h : M.Reachable s) (hown : ∀ e ∈ events, own e) (hr : M.replay s events = some s') :
    events.length + rank s' ≤ rank s := by
  induction events generalizing s with
  | nil =>
    obtain rfl : s = s' := by simpa [Machine.replay] using hr
    exact Nat.le_of_eq (Nat.zero_add _)
  | cons e rest ih =>
    obtain ⟨t, ht, hrest⟩ := Option.bind_eq_some_iff.mp hr
    have hlower := hlowers s e t h (hown e List.mem_cons_self) ht
    have hrun := ih (h.step ht) (fun e' he' => hown e' (List.mem_cons_of_mem e he')) hrest
    rw [List.length_cons]
    omega

end Rank

/-! ## Runs between states -/

/-- The states of the runs from a state. -/
inductive Run (M : Machine σ ε) (s : σ) : σ → Prop where
  | refl : Run M s s
  | step {t u : σ} {e : ε} (h : Run M s t) (hstep : M.step t e = some u) : Run M s u

theorem Reachable.run {s t : σ} (h : M.Reachable s) (hr : M.Run s t) : M.Reachable t := by
  induction hr with
  | refl => exact h
  | step _ hstep ih => exact .step ih hstep

theorem Run.replay {s t u : σ} {events : List ε} (h : M.Run s t) (hr : M.replay t events = some u) : M.Run s u := by
  induction events generalizing t with
  | nil =>
    obtain rfl : t = u := by simpa [Machine.replay] using hr
    exact h
  | cons e rest ih =>
    obtain ⟨t', ht', hrest⟩ := Option.bind_eq_some_iff.mp hr
    exact ih (.step h ht') hrest

/-- A reflexive and transitive relation that every step from a reachable state satisfies holds
    between the ends of every run. -/
theorem Run.relation {R : σ → σ → Prop} (hrefl : ∀ s, R s s)
    (htrans : ∀ s t u, R s t → R t u → R s u)
    (hstep : ∀ s e s', M.Reachable s → M.step s e = some s' → R s s') {s t : σ} (hs : M.Reachable s)
    (hr : M.Run s t) : R s t := by
  induction hr with
  | refl => exact hrefl s
  | step h he ih => exact htrans _ _ _ ih (hstep _ _ _ (hs.run h) he)

/-! ## Events that occur once -/

section Occurrences

variable {p : σ → ε → Prop} [∀ s e, Decidable (p s e)]

/-- How many of the events are enabled and meet a condition on the state before them. -/
def occurrences (M : Machine σ ε) (p : σ → ε → Prop) [∀ s e, Decidable (p s e)] : σ → List ε → Nat
  | _, [] => 0
  | s, e :: rest =>
    match M.step s e with
    | none => 0
    | some s' => (if p s e then 1 else 0) + occurrences M p s' rest

/-- Where the condition is spent for good, no event meets it. -/
theorem Reachable.occurrences_spent {S : σ → Prop}
    (hkeeps : ∀ s e s', M.Reachable s → S s → M.step s e = some s' → S s')
    (hblocks : ∀ s e s', M.Reachable s → S s → M.step s e = some s' → ¬ p s e) {s : σ}
    {events : List ε} (h : M.Reachable s) (hspent : S s) : M.occurrences p s events = 0 := by
  induction events generalizing s with
  | nil => rfl
  | cons e rest ih =>
    rw [occurrences]
    cases hstep : M.step s e with
    | none => rfl
    | some s' =>
      have hrest := ih (h.step hstep) (hkeeps s e s' h hspent hstep)
      simp only [if_neg (hblocks s e s' h hspent hstep), hrest]

/-- An event that spends what it needs occurs at most once in a run. -/
theorem Reachable.occurrences_le_one {S : σ → Prop}
    (hkeeps : ∀ s e s', M.Reachable s → S s → M.step s e = some s' → S s')
    (hblocks : ∀ s e s', M.Reachable s → S s → M.step s e = some s' → ¬ p s e)
    (hspends : ∀ s e s', M.Reachable s → M.step s e = some s' → p s e → S s') {s : σ}
    {events : List ε} (h : M.Reachable s) : M.occurrences p s events ≤ 1 := by
  induction events generalizing s with
  | nil => exact Nat.zero_le 1
  | cons e rest ih =>
    rw [occurrences]
    cases hstep : M.step s e with
    | none => exact Nat.zero_le 1
    | some s' =>
      by_cases hp : p s e
      · have hrest : M.occurrences p s' rest = 0 :=
          (h.step hstep).occurrences_spent hkeeps hblocks (hspends s e s' h hstep hp)
        simp only [if_pos hp, hrest]
        exact Nat.le_refl 1
      · simp only [if_neg hp, Nat.zero_add]
        exact ih (h.step hstep)

/-- An event that lowers a rank, which no event raises, occurs at most as often as the rank says. -/
theorem occurrences_le_rank {I : σ → Prop} {own : ε → Prop} (rank : σ → Nat)
    (hkeeps : ∀ s e s', I s → own e → M.step s e = some s' → I s' ∧ rank s' ≤ rank s)
    (hlowers : ∀ s e s', I s → own e → M.step s e = some s' → p s e → rank s' < rank s) {s : σ} {events : List ε}
    (hs : I s) (hown : ∀ e ∈ events, own e) : M.occurrences p s events ≤ rank s := by
  induction events generalizing s with
  | nil => exact Nat.zero_le _
  | cons e rest ih =>
    rw [occurrences]
    cases hstep : M.step s e with
    | none => exact Nat.zero_le _
    | some s' =>
      have he := hown e List.mem_cons_self
      obtain ⟨hs', hrank⟩ := hkeeps s e s' hs he hstep
      have hrest := ih hs' fun e' he' => hown e' (List.mem_cons_of_mem e he')
      dsimp only
      split
      · rename_i hp
        have hlower := hlowers s e s' hs he hstep hp
        omega
      · omega

end Occurrences

end Machine
