-- SUMMARY: Lists in a strict order: which entries come first, by counting those ahead.
import Mathlib.Data.List.Induction
import Mathlib.Data.List.Sort

/-!
# Rankings

A list in strict order shows no more than the order: an entry is among the first `n` if fewer
than `n` entries are ahead of it, and it survives the erasure of duplicates if no duplicate
is ahead of it.
-/

namespace Ranking

variable {α : Type*} {R : α → α → Prop}

/-- The entries ahead of the first one. -/
theorem countP_head [DecidableRel R] (hasymm : ∀ a b, R a b → ¬ R b a) {a : α} {l : List α} (h : (a :: l).Pairwise R) :
    (a :: l).countP (R · a) = 0 := by
  apply List.countP_eq_zero.mpr
  intro b hb hahead
  have hahead := of_decide_eq_true hahead
  rcases List.mem_cons.mp hb with rfl | hb
  · exact hasymm b b hahead hahead
  · exact hasymm b a hahead (List.rel_of_pairwise_cons h hb)

/-- The first entries are those that few entries are ahead of. -/
theorem mem_take_iff [DecidableRel R] (hasymm : ∀ a b, R a b → ¬ R b a) {l : List α} (h : l.Pairwise R) {n : Nat}
    {a : α} : a ∈ l.take n ↔ a ∈ l ∧ l.countP (R · a) < n := by
  induction l generalizing n with
  | nil => simp
  | cons b l ih =>
    cases n with
    | zero => simp
    | succ n =>
      rw [List.take_succ_cons, List.mem_cons, List.mem_cons, ih h.of_cons]
      by_cases hab : a = b
      · subst hab
        simp [countP_head hasymm h]
      · simp only [hab, false_or]
        apply and_congr_right
        intro ha
        have hahead : decide (R b a) = true := decide_eq_true (List.rel_of_pairwise_cons h ha)
        rw [List.countP_cons_of_pos (p := fun c => decide (R c a)) hahead, Nat.succ_lt_succ_iff]

/-- What holds of later entries holds of any two in the order. -/
theorem rel_of_mem (hasymm : ∀ a b, R a b → ¬ R b a) {S : α → α → Prop} {l : List α} (h : l.Pairwise R)
    (hs : l.Pairwise S) {a b : α} (ha : a ∈ l) (hb : b ∈ l) (hab : R a b) : S a b := by
  induction l with
  | nil => cases ha
  | cons c l ih =>
    rcases List.mem_cons.mp ha with rfl | hal
    · rcases List.mem_cons.mp hb with rfl | hbl
      · exact absurd hab (hasymm _ _ hab)
      · exact List.rel_of_pairwise_cons hs hbl
    · rcases List.mem_cons.mp hb with rfl | hbl
      · exact absurd hab (hasymm _ _ (List.rel_of_pairwise_cons h hal))
      · exact ih h.of_cons hs.of_cons hal hbl

/-- The second order decides between entries of equal keys. -/
def ThenBy {β : Type*} [LinearOrder β] (key : α → β) (R : α → α → Prop) (a b : α) : Prop :=
  key a < key b ∨ key a = key b ∧ R a b

instance ThenBy.total {β : Type*} [LinearOrder β] (key : α → β) [Std.Total R] : Std.Total (ThenBy key R) where
  total a b := by
    rcases lt_trichotomy (key a) (key b) with hlt | heq | hgt
    · exact .inl (.inl hlt)
    · cases Std.Total.total (r := R) a b with
      | inl hab => exact .inl (.inr ⟨heq, hab⟩)
      | inr hba => exact .inr (.inr ⟨heq.symm, hba⟩)
    · exact .inr (.inl hgt)

instance ThenBy.isTrans {β : Type*} [LinearOrder β] (key : α → β) [IsTrans α R] : IsTrans α (ThenBy key R) where
  trans a b c hab hbc := by
    cases hab with
    | inl hlt =>
      cases hbc with
      | inl hlt' => exact .inl (hlt.trans hlt')
      | inr heq => exact .inl (heq.1 ▸ hlt)
    | inr heq =>
      cases hbc with
      | inl hlt => exact .inl (heq.1 ▸ hlt)
      | inr heq' => exact .inr ⟨heq.1.trans heq'.1, trans_of R heq.2 heq'.2⟩

theorem ThenBy.asymm {β : Type*} [LinearOrder β] {key : α → β} (hasymm : ∀ a b, R a b → ¬ R b a) (a b : α)
    (h : ThenBy key R a b) : ¬ ThenBy key R b a := by
  intro hba
  cases h with
  | inl hlt =>
    cases hba with
    | inl hgt => exact lt_asymm hlt hgt
    | inr heq => exact hlt.ne heq.1.symm
  | inr heq =>
    cases hba with
    | inl hgt => exact hgt.ne heq.1.symm
    | inr heq' => exact hasymm a b heq.2 heq'.2

instance ThenBy.decidable {β : Type*} [LinearOrder β] (key : α → β) [DecidableRel R] : DecidableRel (ThenBy key R) :=
  fun _ _ => inferInstanceAs (Decidable (_ ∨ _))

theorem ThenBy.key_le {β : Type*} [LinearOrder β] {key : α → β} {a b : α} (h : ThenBy key R a b) : key a ≤ key b := by
  cases h with
  | inl hlt => exact hlt.le
  | inr heq => exact heq.1.le

theorem ThenBy.of_key_le {β : Type*} [LinearOrder β] {key : α → β} {a b : α} (h : key a ≤ key b) (hab : R a b) :
    ThenBy key R a b := by
  cases h.lt_or_eq with
  | inl hlt => exact .inl hlt
  | inr heq => exact .inr ⟨heq, hab⟩

/-- Inserting by its key an entry that the second order has ahead of all others. -/
theorem pairwise_orderedInsert {β : Type*} [LinearOrder β] {key : α → β} {a : α} {l : List α}
    (hfirst : ∀ b ∈ l, R a b) (h : l.Pairwise (ThenBy key R)) :
    (l.orderedInsert (fun a b => key a ≤ key b) a).Pairwise (ThenBy key R) := by
  induction l with
  | nil => exact List.pairwise_singleton _ a
  | cons b l ih =>
    rw [List.orderedInsert_cons]
    split
    · rename_i hab
      apply List.Pairwise.cons _ h
      intro c hc
      apply ThenBy.of_key_le _ (hfirst c hc)
      cases List.mem_cons.mp hc with
      | inl hcb => exact hcb ▸ hab
      | inr hc => exact hab.trans (List.rel_of_pairwise_cons h hc).key_le
    · rename_i hba
      apply List.Pairwise.cons _ (ih (fun c hc => hfirst c (List.mem_cons_of_mem b hc)) h.of_cons)
      intro c hc
      cases (List.mem_orderedInsert _).mp hc with
      | inl hca => exact .inl (hca ▸ not_le.mp hba)
      | inr hc => exact List.rel_of_pairwise_cons h hc

/-- Sorting by a key keeps the order of entries of equal keys. -/
theorem pairwise_insertionSort {β : Type*} [LinearOrder β] {key : α → β} {l : List α} (h : l.Pairwise R) :
    (l.insertionSort fun a b => key a ≤ key b).Pairwise (ThenBy key R) := by
  induction l with
  | nil => exact List.Pairwise.nil
  | cons a l ih =>
    rw [List.insertionSort_cons]
    apply pairwise_orderedInsert _ (ih h.of_cons)
    intro b hb
    exact List.rel_of_pairwise_cons h ((List.mem_insertionSort _).mp hb)

/-- Inserting an entry before those it is not behind, and then keeping some. -/
theorem filter_orderedInsert [DecidableRel R] [IsTrans α R] (p : α → Bool) (a : α) {l : List α} (h : l.Pairwise R) :
    (l.orderedInsert R a).filter p = if p a then (l.filter p).orderedInsert R a else l.filter p := by
  induction l with
  | nil => cases hp : p a <;> simp [hp]
  | cons b l ih =>
    by_cases hab : R a b
    · have hfirst : ∀ c ∈ (b :: l).filter p, R a c := by
        intro c hc
        cases List.mem_cons.mp (List.mem_filter.mp hc).1 with
        | inl hcb => exact hcb ▸ hab
        | inr hc => exact trans_of R hab (List.rel_of_pairwise_cons h hc)
      rw [List.orderedInsert_cons_of_le R l hab, List.filter_cons]
      cases hkept : (b :: l).filter p with
      | nil => rfl
      | cons c kept => rw [List.orderedInsert_cons_of_le R kept (hfirst c (hkept ▸ List.mem_cons_self))]
    · rw [List.orderedInsert_cons, if_neg hab, List.filter_cons, List.filter_cons, ih h.of_cons]
      cases p a <;> cases p b <;> simp [hab]

/-- Sorting the entries that are kept is keeping entries of the sorted list. -/
theorem insertionSort_filter [DecidableRel R] [Std.Total R] [IsTrans α R] (p : α → Bool) (l : List α) :
    (l.filter p).insertionSort R = (l.insertionSort R).filter p := by
  induction l with
  | nil => rfl
  | cons a l ih =>
    rw [List.insertionSort_cons, filter_orderedInsert p a (List.pairwise_insertionSort R l), List.filter_cons, ← ih]
    cases p a with
    | true => rfl
    | false => rfl

/-- An entry among the first is still among the first of those that are kept with it. -/
theorem mem_take_filter {p : α → Bool} {l : List α} {n : Nat} {a : α} (h : a ∈ l.take n) (hp : p a = true) :
    a ∈ (l.filter p).take n := by
  induction l generalizing n with
  | nil => simp at h
  | cons b l ih =>
    cases n with
    | zero => simp at h
    | succ n =>
      rw [List.take_succ_cons] at h
      cases List.mem_cons.mp h with
      | inl hab =>
        rw [← hab, List.filter_cons_of_pos hp]
        exact List.mem_cons_self
      | inr h =>
        have hlater := ih h
        cases hb : p b with
        | true =>
          rw [List.filter_cons_of_pos hb]
          exact List.mem_cons_of_mem b hlater
        | false =>
          rw [List.filter_cons_of_neg (Bool.eq_false_iff.mp hb)]
          exact List.take_subset_take_left _ (Nat.le_succ n) hlater

theorem length_filter_lt {p : α → Bool} (b : α) (l : List α) : (l.filter p).length < (b :: l).length :=
  Nat.lt_succ_of_le (List.length_filter_le p l)

theorem eraseDupsBy_sublist {r : α → α → Bool} : ∀ l : List α, (l.eraseDupsBy r).Sublist l
  | [] => List.nil_sublist _
  | b :: l => by
    rw [List.eraseDupsBy_cons]
    exact ((eraseDupsBy_sublist _).trans List.filter_sublist).cons_cons b
termination_by l => l.length
decreasing_by simpa using length_filter_lt b l

theorem any_filter {r : α → α → Bool} (htrans : ∀ a b c, r a b = true → r b c = true → r a c = true) {a b : α}
    (hab : r a b = false) (l : List α) : (l.filter fun c => decide (r c b = false)).any (r a) = l.any (r a) := by
  rw [Bool.eq_iff_iff, List.any_eq_true, List.any_eq_true]
  constructor
  · exact fun ⟨c, hc, hac⟩ => ⟨c, (List.mem_filter.mp hc).1, hac⟩
  · rintro ⟨c, hc, hac⟩
    refine ⟨c, List.mem_filter.mpr ⟨hc, decide_eq_true (Bool.eq_false_iff.mpr fun hcb => ?_)⟩, hac⟩
    rw [htrans a c b hac hcb] at hab
    cases hab

/-- Erasing duplicates leaves one of each. -/
theorem any_eraseDupsBy {r : α → α → Bool} (htrans : ∀ a b c, r a b = true → r b c = true → r a c = true) (a : α) :
    ∀ l : List α, (l.eraseDupsBy r).any (r a) = l.any (r a)
  | [] => rfl
  | b :: l => by
    rw [List.eraseDupsBy_cons, List.any_cons, List.any_cons, any_eraseDupsBy htrans a _]
    cases hab : r a b with
    | true => rfl
    | false => rw [any_filter htrans hab]
termination_by l => l.length
decreasing_by simpa using length_filter_lt b l

/-- A last entry stays unless it is a duplicate. -/
theorem eraseDupsBy_concat {r : α → α → Bool} (htrans : ∀ a b c, r a b = true → r b c = true → r a c = true) (a : α) :
    ∀ l : List α, (l ++ [a]).eraseDupsBy r = if l.any (r a) then l.eraseDupsBy r else l.eraseDupsBy r ++ [a]
  | [] => by simp [List.eraseDupsBy_cons]
  | b :: l => by
    rw [List.cons_append, List.eraseDupsBy_cons, List.eraseDupsBy_cons, List.filter_append, List.any_cons]
    cases hab : r a b with
    | true => simp [hab]
    | false =>
      have hlast : [a].filter (fun c => decide (r c b = false)) = [a] := by simp [hab]
      rw [hlast, eraseDupsBy_concat htrans a _, any_filter htrans hab, Bool.false_or]
      split
      · rfl
      · rfl
termination_by l => l.length
decreasing_by simpa using length_filter_lt b l

theorem eraseDups_concat [DecidableEq α] (l : List α) (a : α) :
    (l ++ [a]).eraseDups = if a ∈ l then l.eraseDups else l.eraseDups ++ [a] := by
  have htrans : ∀ a b c : α, (a == b) = true → (b == c) = true → (a == c) = true := by
    intro a b c hab hbc
    exact beq_iff_eq.mpr ((beq_iff_eq.mp hab).trans (beq_iff_eq.mp hbc))
  have h := eraseDupsBy_concat htrans a l
  simpa [List.eraseDups] using h

/-- Erasing duplicates keeps the order of the first occurrences. -/
theorem pairwise_eraseDups [DecidableEq α] (l : List α) : l.eraseDups.Pairwise fun a b => l.idxOf a < l.idxOf b := by
  induction l using List.reverseRecOn with
  | nil => exact List.Pairwise.nil
  | append_singleton l a ih =>
    have hold : l.eraseDups.Pairwise fun b c => (l ++ [a]).idxOf b < (l ++ [a]).idxOf c := by
      apply ih.imp_of_mem
      intro b c hb hc hbc
      rwa [List.idxOf_append_of_mem (List.mem_eraseDups.mp hb), List.idxOf_append_of_mem (List.mem_eraseDups.mp hc)]
    rw [eraseDups_concat]
    split
    · exact hold
    · rename_i ha
      apply List.pairwise_append.mpr ⟨hold, List.pairwise_singleton _ a, _⟩
      intro b hb c hc
      cases List.mem_singleton.mp hc
      have hb := List.mem_eraseDups.mp hb
      rw [List.idxOf_append_of_mem hb, List.idxOf_append_of_notMem ha]
      exact Nat.lt_add_right _ (List.idxOf_lt_length_iff.mpr hb)

theorem pairwise_idxOf [DecidableEq α] {l : List α} (h : l.Nodup) : l.Pairwise fun a b => l.idxOf a < l.idxOf b := by
  apply List.pairwise_iff_getElem.mpr
  intro i j hi hj hij
  rwa [h.idxOf_getElem, h.idxOf_getElem]

/-- Of duplicates, the one ahead of the others survives. -/
theorem mem_eraseDupsBy_iff (hasymm : ∀ a b, R a b → ¬ R b a) {r : α → α → Bool} (hsymm : ∀ a b, r a b = r b a)
    (htrans : ∀ a b c, r a b = true → r b c = true → r a c = true) {a : α} :
    ∀ {l : List α}, l.Pairwise R → (a ∈ l.eraseDupsBy r ↔ a ∈ l ∧ ∀ b ∈ l, R b a → r b a = false)
  | [], _ => by simp
  | b :: l, h => by
    rw [List.eraseDupsBy_cons, List.mem_cons, mem_eraseDupsBy_iff hasymm hsymm htrans (h.of_cons.filter _)]
    constructor
    · rintro (rfl | ⟨ha, hfirst⟩)
      · refine ⟨List.mem_cons_self, fun c hc hahead => ?_⟩
        rcases List.mem_cons.mp hc with rfl | hc
        · exact absurd hahead (hasymm c c hahead)
        · exact absurd hahead (hasymm a c (List.rel_of_pairwise_cons h hc))
      · obtain ⟨ha, hab⟩ := List.mem_filter.mp ha
        have hab : r a b = false := of_decide_eq_true hab
        refine ⟨List.mem_cons_of_mem _ ha, fun c hc hahead => ?_⟩
        rcases List.mem_cons.mp hc with rfl | hc
        · rwa [hsymm]
        · cases hcb : r c b with
          | false => exact hfirst c (List.mem_filter.mpr ⟨hc, decide_eq_true hcb⟩) hahead
          | true =>
            apply Bool.eq_false_iff.mpr
            intro hdup
            rw [hsymm] at hdup
            rw [htrans a c b hdup hcb] at hab
            cases hab
    · rintro ⟨ha, hfirst⟩
      rcases List.mem_cons.mp ha with rfl | ha
      · exact .inl rfl
      · right
        have hba := hfirst b List.mem_cons_self (List.rel_of_pairwise_cons h ha)
        rw [hsymm] at hba
        refine ⟨List.mem_filter.mpr ⟨ha, decide_eq_true hba⟩, fun c hc => ?_⟩
        exact hfirst c (List.mem_cons_of_mem _ (List.mem_filter.mp hc).1)
termination_by l => l.length
decreasing_by simpa using length_filter_lt b l

theorem pairwise_eraseDupsBy {r : α → α → Bool} : ∀ l : List α, (l.eraseDupsBy r).Pairwise fun a b => r b a = false
  | [] => List.Pairwise.nil
  | b :: l => by
    rw [List.eraseDupsBy_cons]
    apply List.Pairwise.cons _ (pairwise_eraseDupsBy _)
    intro c hc
    exact of_decide_eq_true (List.mem_filter.mp ((eraseDupsBy_sublist _).subset hc)).2
termination_by l => l.length
decreasing_by simpa using length_filter_lt b l

-- ---------------------------------------------------------------------------
-- The first of their kinds
-- ---------------------------------------------------------------------------

/-- What is ahead of one of the first entries is one of them. -/
theorem mem_take_of_ahead (hasymm : ∀ a b, R a b → ¬ R b a) {l : List α} (h : l.Pairwise R) {n : Nat} {a b : α}
    (ha : a ∈ l.take n) (hb : b ∈ l) (hba : R b a) : b ∈ l.take n := by
  rw [← List.take_append_drop n l] at h hb
  cases List.mem_append.mp hb with
  | inl hb => exact hb
  | inr hb => exact absurd hba (hasymm a b ((List.pairwise_append.mp h).2.2 a ha b hb))

theorem nodup_of_pairwise (hasymm : ∀ a b, R a b → ¬ R b a) {l : List α} (h : l.Pairwise R) : l.Nodup := by
  apply h.imp
  intro a b hab heq
  subst heq
  exact hasymm a a hab hab

/-- The entry is wanted, and no wanted one ahead of it is its duplicate. -/
def First (R : α → α → Prop) (p : α → Bool) (r : α → α → Bool) (l : List α) (a : α) : Prop :=
  p a = true ∧ ∀ b ∈ l, p b = true → R b a → r b a = false

instance [DecidableRel R] (p : α → Bool) (r : α → α → Bool) (l : List α) : DecidablePred (First R p r l) :=
  fun _ => inferInstanceAs (Decidable (_ ∧ _))

theorem First.perm {p : α → Bool} {r : α → α → Bool} {l l' : List α} (hperm : l.Perm l') {a : α} :
    First R p r l a ↔ First R p r l' a := by
  simp only [First, hperm.mem_iff]

section Cuts

variable {p : α → Bool} {r : α → α → Bool} (hasymm : ∀ a b, R a b → ¬ R b a) (hsymm : ∀ a b, r a b = r b a)
  (htrans : ∀ a b c, r a b = true → r b c = true → r a c = true) {l : List α} (h : l.Pairwise R) {n : Nat} {a : α}

include hasymm hsymm htrans h

/-- Of the wanted ones among the first entries, the first of its duplicates survives. -/
theorem mem_eraseDupsBy_take : a ∈ ((l.take n).filter p).eraseDupsBy r ↔ a ∈ l.take n ∧ First R p r l a := by
  rw [mem_eraseDupsBy_iff hasymm hsymm htrans ((h.sublist (List.take_sublist n l)).filter p), List.mem_filter, First,
    and_assoc]
  apply and_congr_right
  intro ha
  apply and_congr_right
  intro _
  constructor
  · intro hfirst b hb hpb hahead
    exact hfirst b (List.mem_filter.mpr ⟨mem_take_of_ahead hasymm h ha hb hahead, hpb⟩) hahead
  · intro hfirst b hb hahead
    exact hfirst b (List.mem_of_mem_take (List.mem_filter.mp hb).1) (List.mem_filter.mp hb).2 hahead

/-- The survivors ahead of an entry are the first ones of their duplicates. -/
theorem countP_eraseDupsBy_take [DecidableRel R] (ha : a ∈ l.take n) :
    (((l.take n).filter p).eraseDupsBy r).countP (R · a) = l.countP fun b => First R p r l b ∧ R b a := by
  have hnodup := nodup_of_pairwise hasymm h
  have hkept : (((l.take n).filter p).eraseDupsBy r).Nodup :=
    hnodup.sublist ((eraseDupsBy_sublist _).trans (List.filter_sublist.trans (List.take_sublist n l)))
  rw [List.countP_eq_length_filter, List.countP_eq_length_filter]
  apply List.Perm.length_eq
  apply (List.perm_ext_iff_of_nodup (hkept.filter _) (hnodup.filter _)).mpr
  intro b
  simp only [List.mem_filter, mem_eraseDupsBy_take hasymm hsymm htrans h, decide_eq_true_eq]
  constructor
  · intro hb
    exact ⟨List.mem_of_mem_take hb.1.1, hb.1.2, hb.2⟩
  · intro hb
    exact ⟨⟨mem_take_of_ahead hasymm h ha hb.1 hb.2.2, hb.2.1⟩, hb.2.2⟩

/-- Cutting a ranking, keeping the first of each kind, and cutting again: who passes, by counting those ahead. -/
theorem mem_take_eraseDupsBy_take [DecidableRel R] {rows : List α} (hperm : l.Perm rows) {k : Nat} :
    a ∈ (((l.take n).filter p).eraseDupsBy r).take k ↔
      a ∈ rows ∧ First R p r rows a ∧ rows.countP (R · a) < n ∧
        rows.countP (fun b => First R p r rows b ∧ R b a) < k := by
  have hkept : (((l.take n).filter p).eraseDupsBy r).Pairwise R :=
    h.sublist ((eraseDupsBy_sublist _).trans (List.filter_sublist.trans (List.take_sublist n l)))
  have hfirst (b : α) : First R p r l b ↔ First R p r rows b := First.perm hperm
  have hmem : a ∈ l.take n ↔ a ∈ rows ∧ rows.countP (R · a) < n := by
    rw [mem_take_iff hasymm h, hperm.mem_iff, hperm.countP_eq]
  have hahead (ha : a ∈ l.take n) : (((l.take n).filter p).eraseDupsBy r).countP (R · a) =
      rows.countP fun b => First R p r rows b ∧ R b a := by
    rw [countP_eraseDupsBy_take hasymm hsymm htrans h ha, hperm.countP_eq]
    simp only [hfirst]
  rw [mem_take_iff hasymm hkept, mem_eraseDupsBy_take hasymm hsymm htrans h, hfirst]
  constructor
  · intro hpasses
    have hin := hmem.mp hpasses.1.1
    exact ⟨hin.1, hpasses.1.2, hin.2, hahead hpasses.1.1 ▸ hpasses.2⟩
  · intro hpasses
    have hin := hmem.mpr ⟨hpasses.1, hpasses.2.2.1⟩
    exact ⟨⟨hin, hpasses.2.1⟩, (hahead hin).symm ▸ hpasses.2.2.2⟩

end Cuts

end Ranking
