-- SUMMARY: Lists that answer some of the entries of another list, in its order.
import Mathlib.Data.List.Forall2

/-!
# Selections

`List.SublistForall₂ R` relates a list to one whose entries it answers by `R`, in order and
each at most once. Two such steps compose, and what identifies an answer with its entry is
kept in order.
-/

namespace Selection

variable {α β γ κ : Type*} {R : α → β → Prop} {S : β → γ → Prop} {T : α → γ → Prop} {as : List α} {bs : List β}
  {cs : List γ}

theorem imp {R' : α → β → Prop} (himp : ∀ a b, R a b → R' a b) (h : List.SublistForall₂ R as bs) :
    List.SublistForall₂ R' as bs := by
  induction h with
  | nil => exact .nil
  | cons hr _ ih => exact .cons (himp _ _ hr) ih
  | cons_right _ ih => exact .cons_right ih

/-- Answers to answers are answers. -/
theorem trans (htrans : ∀ a b c, R a b → S b c → T a c) (h : List.SublistForall₂ R as bs)
    (h' : List.SublistForall₂ S bs cs) : List.SublistForall₂ T as cs := by
  induction h' generalizing as with
  | nil =>
    cases h
    exact .nil
  | cons hs _ ih =>
    cases h with
    | nil => exact .nil
    | cons hr h => exact .cons (htrans _ _ _ hr hs) (ih h)
    | cons_right h => exact .cons_right (ih h)
  | cons_right _ ih => exact .cons_right (ih h)

/-- Every answer answers an entry. -/
theorem exists_of_mem (h : List.SublistForall₂ R as bs) {a : α} (ha : a ∈ as) : ∃ b ∈ bs, R a b := by
  induction h with
  | nil => cases ha
  | cons hr _ ih =>
    rcases List.mem_cons.mp ha with rfl | ha
    · exact ⟨_, List.mem_cons_self, hr⟩
    · obtain ⟨b, hb, hrb⟩ := ih ha
      exact ⟨b, List.mem_cons_of_mem _ hb, hrb⟩
  | cons_right _ ih =>
    obtain ⟨b, hb, hrb⟩ := ih ha
    exact ⟨b, List.mem_cons_of_mem _ hb, hrb⟩

/-- What is answered is an entry. -/
theorem with_mem (h : List.SublistForall₂ R as bs) : List.SublistForall₂ (fun a b => R a b ∧ b ∈ bs) as bs := by
  induction h with
  | nil => exact .nil
  | cons hr _ ih => exact .cons ⟨hr, List.mem_cons_self⟩ (imp (fun _ _ h => ⟨h.1, List.mem_cons_of_mem _ h.2⟩) ih)
  | cons_right _ ih => exact .cons_right (imp (fun _ _ h => ⟨h.1, List.mem_cons_of_mem _ h.2⟩) ih)

/-- Answers under the keys of their entries are in the order of the entries. -/
theorem map_sublist {f : α → κ} {g : β → κ} (hkey : ∀ a b, R a b → f a = g b) (h : List.SublistForall₂ R as bs) :
    (as.map f).Sublist (bs.map g) := by
  induction h with
  | nil => exact List.nil_sublist _
  | cons hr _ ih =>
    rw [List.map_cons, List.map_cons, hkey _ _ hr]
    exact ih.cons_cons _
  | cons_right _ ih => exact ih.cons _

theorem length_le (h : List.SublistForall₂ R as bs) : as.length ≤ bs.length := by
  induction h with
  | nil => exact Nat.zero_le _
  | cons _ _ ih => exact Nat.succ_le_succ ih
  | cons_right _ ih => exact Nat.le_succ_of_le ih

/-- As many answers as entries answer every entry. -/
theorem answered (h : List.SublistForall₂ R as bs) (hlength : as.length = bs.length) {b : β} (hb : b ∈ bs) :
    ∃ a ∈ as, R a b := by
  induction h with
  | nil =>
    rw [List.length_eq_zero_iff.mp hlength.symm] at hb
    cases hb
  | cons hr _ ih =>
    rcases List.mem_cons.mp hb with rfl | hb
    · exact ⟨_, List.mem_cons_self, hr⟩
    · obtain ⟨a, ha, hrb⟩ := ih (Nat.succ.inj hlength) hb
      exact ⟨a, List.mem_cons_of_mem _ ha, hrb⟩
  | cons_right h =>
    have hle := length_le h
    rw [hlength] at hle
    exact absurd hle (Nat.not_succ_le_self _)

end Selection
