-- SUMMARY: Following a partial parent function to its founder, and relations that stay acyclic as nodes are added.
import Mathlib.Logic.Relation

/-!
# Ancestry

A lineage numbers the members of a population by generation: a founder has generation
one, any other member one more than its parent, and parent and child carry the same
label. Walking up as often as the generation says ends at the founder that bears the
label. A relation to which nodes without successors are added stays acyclic.
-/

variable {α κ : Type*}

-- ---------------------------------------------------------------------------
-- Lineages
-- ---------------------------------------------------------------------------

/-- Follows a partial parent function a number of times. -/
def ancestor (parent : α → Option α) : Nat → α → Option α
  | 0, a => some a
  | n + 1, a => (parent a).bind (ancestor parent n)

theorem ancestor_succ {parent : α → Option α} {n : Nat} {a b : α} (h : parent a = some b) :
    ancestor parent (n + 1) a = ancestor parent n b := by
  simp [ancestor, h]

/-- Every member is a founder, which bears its own name, or has a parent of the generation
    before it and of the same label. -/
structure Lineage (member : α → Prop) (parent : α → Option α) (generation : α → Nat)
    (name label : α → κ) : Prop where
  cases : ∀ a, member a →
    (parent a = none ∧ generation a = 1 ∧ label a = name a) ∨
    ∃ b, member b ∧ parent a = some b ∧ generation a = generation b + 1 ∧ label a = label b

namespace Lineage

variable {member : α → Prop} {parent : α → Option α} {generation : α → Nat} {name label : α → κ}

theorem generation_pos (h : Lineage member parent generation name label) {a : α} (ha : member a) :
    0 < generation a := by
  rcases h.cases a ha with ⟨_, hgen, _⟩ | ⟨b, _, _, hgen, _⟩
  · simp [hgen]
  · simp [hgen]

/-- Walking up from a member ends at the founder whose name is the member's label. -/
theorem founder (h : Lineage member parent generation name label) {a : α} (ha : member a) :
    ∃ r, member r ∧ ancestor parent (generation a - 1) a = some r ∧ generation r = 1 ∧
      label a = name r := by
  induction hn : generation a generalizing a with
  | zero => exact absurd hn (Nat.ne_of_gt (h.generation_pos ha))
  | succ n ih =>
    rcases h.cases a ha with ⟨_, hgen, hlabel⟩ | ⟨b, hb, hparent, hgen, hlabel⟩
    · obtain rfl : n = 0 := by simpa [hgen] using hn.symm
      exact ⟨a, ha, rfl, hgen, hlabel⟩
    · have hn : generation b = n := by simpa [hgen] using hn
      obtain ⟨r, hr, hwalk, hone, hname⟩ := ih hb hn
      obtain ⟨k, rfl⟩ : ∃ k, n = k + 1 :=
        Nat.exists_eq_succ_of_ne_zero (hn ▸ Nat.ne_of_gt (h.generation_pos hb))
      refine ⟨r, hr, ?_, hone, hlabel.trans hname⟩
      rw [Nat.add_sub_cancel, ancestor_succ hparent]
      exact hwalk

end Lineage

-- ---------------------------------------------------------------------------
-- Acyclic relations
-- ---------------------------------------------------------------------------

/-- No path leads from a node back to itself. -/
def Acyclic (r : α → α → Prop) : Prop := ∀ a, ¬ Relation.TransGen r a a

namespace Acyclic

variable {r r' : α → α → Prop}

theorem of_empty (h : ∀ a b, ¬ r a b) : Acyclic r := by
  intro a hpath
  cases hpath with
  | single hab => exact h _ _ hab
  | tail _ hbc => exact h _ _ hbc

/-- A path that does not end at a node without successors does not meet that node. -/
theorem path_avoids {s : α} (hsink : ∀ b, ¬ r' s b) (hold : ∀ a b, r' a b → b ≠ s → r a b) {a b : α}
    (hpath : Relation.TransGen r' a b) (hb : b ≠ s) : Relation.TransGen r a b := by
  induction hpath with
  | single hab => exact .single (hold _ _ hab hb)
  | @tail b _ _ hbc ih =>
    have hne : b ≠ s := by
      rintro rfl
      exact hsink _ hbc
    exact .tail (ih hne) (hold _ _ hbc hb)

/-- Edges into a node without successors close no cycle. -/
theorem add_sink {s : α} (h : Acyclic r) (hsink : ∀ b, ¬ r' s b)
    (hold : ∀ a b, r' a b → b ≠ s → r a b) : Acyclic r' := by
  intro a hpath
  by_cases ha : a = s
  · obtain ⟨b, hab, _⟩ := Relation.TransGen.head'_iff.mp hpath
    exact hsink b (ha ▸ hab)
  · exact h a (path_avoids hsink hold hpath ha)

end Acyclic
