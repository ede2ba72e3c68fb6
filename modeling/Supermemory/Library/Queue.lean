-- SUMMARY: Lists that grow at their end: what is taken from anywhere leaves the others in order, and what comes stands behind.
import Mathlib.Data.List.Basic
import Mathlib.Data.List.MinMax
import Mathlib.Data.List.Nodup

/-!
# Queues

Entries leave a queue from any place, and new ones join at its end. Those that stay keep
their order, and nobody gets ahead of an entry that was there before. An event that takes
an entry from among those ahead of another one can therefore happen only as often as there
are entries ahead.
-/

namespace Queue

variable {α : Type*} {fresh : α → Prop} {l l' l'' : List α}

/-- Some entries are gone, the others stand in their order, and those behind them are fresh. -/
def Appends (fresh : α → Prop) (l l' : List α) : Prop :=
  ∃ kept new, l' = kept ++ new ∧ kept.Sublist l ∧ ∀ a ∈ new, fresh a

namespace Appends

theorem of_sublist (h : l'.Sublist l) : Appends fresh l l' :=
  ⟨l', [], (List.append_nil l').symm, h, fun _ ha => absurd ha List.not_mem_nil⟩

theorem refl (l : List α) : Appends fresh l l := of_sublist (List.Sublist.refl l)

theorem concat {a : α} (ha : fresh a) : Appends fresh l (l ++ [a]) :=
  ⟨l, [a], rfl, List.Sublist.refl l, fun _ hb => List.mem_singleton.mp hb ▸ ha⟩

theorem trans {later : α → Prop} (h : Appends fresh l l') (h' : Appends later l' l'') (hlater : ∀ a, later a → fresh a) :
    Appends fresh l l'' := by
  obtain ⟨kept, new, rfl, hkept, hnew⟩ := h
  obtain ⟨kept', new', rfl, hkept', hnew'⟩ := h'
  obtain ⟨first, second, rfl, hfirst, hsecond⟩ := List.sublist_append_iff.mp hkept'
  refine ⟨first, second ++ new', List.append_assoc _ _ _, hfirst.trans hkept, fun a ha => ?_⟩
  cases List.mem_append.mp ha with
  | inl hold => exact hnew a (hsecond.subset hold)
  | inr hnew => exact hlater a (hnew' a hnew)

theorem map {β : Type*} {f : α → β} {fresh' : β → Prop} (h : Appends fresh l l') (hfresh : ∀ a, fresh a → fresh' (f a)) :
    Appends fresh' (l.map f) (l'.map f) := by
  obtain ⟨kept, new, rfl, hkept, hnew⟩ := h
  refine ⟨kept.map f, new.map f, List.map_append, hkept.map f, fun b hb => ?_⟩
  obtain ⟨a, ha, rfl⟩ := List.mem_map.mp hb
  exact hfresh a (hnew a ha)

/-- An order in which fresh entries come last is kept. -/
theorem pairwise {R : α → α → Prop} (h : Appends fresh l l') (hl : l.Pairwise R)
    (hlast : ∀ a ∈ l, ∀ b, fresh b → R a b) (hfresh : ∀ a b, fresh a → fresh b → R a b) : l'.Pairwise R := by
  obtain ⟨kept, new, rfl, hkept, hnew⟩ := h
  refine List.pairwise_append.mpr ⟨hl.sublist hkept, ?_, fun a ha b hb => hlast a (hkept.subset ha) b (hnew b hb)⟩
  exact List.pairwise_of_forall_mem_list fun a ha b hb => hfresh a b (hnew a ha) (hnew b hb)

theorem mem {a : α} (h : Appends fresh l l') (ha : a ∈ l') : a ∈ l ∨ fresh a := by
  obtain ⟨kept, new, rfl, hkept, hnew⟩ := h
  exact (List.mem_append.mp ha).imp (hkept.subset ·) (hnew a)

/-- Nobody gets ahead of an entry that was there before. -/
theorem precedes {a b : α} (h : Appends fresh l l') (hb : ¬ fresh b) (hab : [a, b].Sublist l') : [a, b].Sublist l := by
  obtain ⟨kept, new, rfl, hkept, hnew⟩ := h
  obtain ⟨first, second, hsplit, hfirst, hsecond⟩ := List.sublist_append_iff.mp hab
  have hempty : second = [] := by
    apply List.eq_nil_iff_forall_not_mem.mpr
    intro c hc
    have hlast : b ∈ second := by
      have hends : [a, b].getLast? = (first ++ second).getLast? := congrArg List.getLast? hsplit
      rw [List.getLast?_append_of_ne_nil _ (List.ne_nil_of_mem hc)] at hends
      exact List.mem_of_getLast? hends.symm
    exact hb (hnew b (hsecond.subset hlast))
  rw [hempty, List.append_nil] at hsplit
  exact hsplit ▸ hfirst.trans hkept

end Appends

/-- In an ordered list, the least entry is the first one. -/
theorem argmin_ordered {β : Type*} [LinearOrder β] {f : α → β} (h : l.Pairwise fun a b => f a ≤ f b) :
    l.argmin f = l.head? := by
  cases l with
  | nil => rfl
  | cons a rest =>
    rw [List.argmin_cons]
    cases hrest : rest.argmin f with
    | none => rfl
    | some c =>
      have hc : c ∈ rest := List.argmin_mem hrest
      exact if_neg (not_lt.mpr (List.rel_of_pairwise_cons h hc))

end Queue
