-- SUMMARY: Loops that stop at the first error: what a loop that ends has kept.
import Mathlib.Tactic.TypeStar

/-!
# Loops that may fail

A loop over a list runs a step for each item on a state, and it ends with the error of the
first step that fails. What every step keeps, a loop that ends without an error keeps.
-/

namespace Loop

universe u

variable {ε α : Type*} {σ τ : Type u}

theorem bind_ok {x : Except ε σ} {f : σ → Except ε τ} {b : τ} :
    (x >>= f) = .ok b ↔ ∃ a, x = .ok a ∧ f a = .ok b := by
  cases x with
  | error e => simp [bind, Except.bind]
  | ok a => simp [bind, Except.bind]

theorem bind_error {x : Except ε σ} {f : σ → Except ε τ} {e : ε} :
    (x >>= f) = .error e ↔ x = .error e ∨ ∃ a, x = .ok a ∧ f a = .error e := by
  cases x with
  | error e => simp [bind, Except.bind]
  | ok a => simp [bind, Except.bind]

theorem ok_of_mem_toOption {x : Except ε σ} {a : σ} (h : a ∈ x.toOption) : x = .ok a := by
  cases x with
  | error e => cases h
  | ok b =>
    cases h
    rfl

theorem foldlM_cons_ok {f : σ → α → Except ε σ} {s s' : σ} {a : α} {rest : List α} :
    (a :: rest).foldlM f s = .ok s' ↔ ∃ t, f s a = .ok t ∧ rest.foldlM f t = .ok s' := by
  rw [List.foldlM_cons]
  exact bind_ok

theorem foldlM_nil_ok {f : σ → α → Except ε σ} {s s' : σ} :
    ([] : List α).foldlM f s = .ok s' ↔ s = s' := by
  simp [pure, Except.pure]

/-- The error of a loop is that of a step. -/
theorem foldlM_error {f : σ → α → Except ε σ} {items : List α} {s : σ} {e : ε} (h : items.foldlM f s = .error e) :
    ∃ a t, f t a = .error e := by
  induction items generalizing s with
  | nil => cases h
  | cons a rest ih =>
    rw [List.foldlM_cons] at h
    rcases bind_error.mp h with hfirst | ⟨t, -, hrest⟩
    · exact ⟨a, s, hfirst⟩
    · exact ih hrest

/-- What holds before a loop and is preserved by the step of every item holds after it. -/
theorem invariant_of_mem {f : σ → α → Except ε σ} {I : σ → Prop} {items : List α}
    (hstep : ∀ a ∈ items, ∀ s s', I s → f s a = .ok s' → I s') {s s' : σ} (hs : I s)
    (h : items.foldlM f s = .ok s') : I s' := by
  induction items generalizing s with
  | nil =>
    cases foldlM_nil_ok.mp h
    exact hs
  | cons a rest ih =>
    obtain ⟨t, hfirst, hrest⟩ := foldlM_cons_ok.mp h
    have ht : I t := hstep a List.mem_cons_self s t hs hfirst
    exact ih (fun b hb => hstep b (List.mem_cons_of_mem a hb)) ht hrest

/-- What holds before a loop and is preserved by every step holds after it. -/
theorem invariant {f : σ → α → Except ε σ} {I : σ → Prop} (hstep : ∀ s a s', I s → f s a = .ok s' → I s')
    {items : List α} {s s' : σ} (hs : I s) (h : items.foldlM f s = .ok s') : I s' :=
  invariant_of_mem (fun a _ s s' => hstep s a s') hs h

/-- What a step establishes of its item, and every step keeps of every item, holds of all items after a loop. -/
theorem settles {f : σ → α → Except ε σ} {I : σ → Prop} {S : α → σ → Prop} {items : List α}
    (hinvariant : ∀ s a s', I s → f s a = .ok s' → I s')
    (hstep : ∀ a ∈ items, ∀ s s', I s → f s a = .ok s' → S a s')
    (hkeep : ∀ s a b s', S a s → f s b = .ok s' → S a s') {s s' : σ} (hs : I s) (h : items.foldlM f s = .ok s') :
    ∀ a ∈ items, S a s' := by
  induction items generalizing s with
  | nil => exact nofun
  | cons b rest ih =>
    obtain ⟨t, hfirst, hrest⟩ := foldlM_cons_ok.mp h
    intro a ha
    rcases List.mem_cons.mp ha with rfl | ha
    · exact invariant (fun s b s' hs hb => hkeep s a b s' hs hb) (hstep a List.mem_cons_self s t hs hfirst) hrest
    · exact ih (fun a ha => hstep a (List.mem_cons_of_mem b ha)) (hinvariant s b t hs hfirst) hrest a ha

/-- A loop ends, in a state that has what each of its steps keeps. -/
theorem completes {f : σ → α → Except ε σ} {I : σ → Prop} {items : List α}
    (hstep : ∀ a ∈ items, ∀ s, I s → ∃ s', f s a = .ok s' ∧ I s') {s : σ} (hs : I s) :
    ∃ s', items.foldlM f s = .ok s' ∧ I s' := by
  induction items generalizing s with
  | nil => exact ⟨s, rfl, hs⟩
  | cons a rest ih =>
    obtain ⟨t, hfirst, ht⟩ := hstep a List.mem_cons_self s hs
    obtain ⟨s', hrest, hs'⟩ := ih (fun b hb => hstep b (List.mem_cons_of_mem a hb)) ht
    exact ⟨s', foldlM_cons_ok.mpr ⟨t, hfirst, hrest⟩, hs'⟩

end Loop
