-- SUMMARY: The rows of a keyed table that meet a condition, and the statements and queries that only depend on them.
import Supermemory.Library.Table

/-!
# Restriction of a table

A table restricted to a condition is what somebody sees of it who may see the rows that meet the
condition. A statement that only touches other rows leaves the restriction as it is, and a
query that only asks for rows of the restriction may be asked of the restriction.
-/

variable {α β κ : Type*} {key : α → κ}

namespace Table

/-- The rows that meet a condition. -/
def only (t : Table α key) (q : α → Prop) [DecidablePred q] : Table α key where
  rows := t.rows.filter fun r => q r
  nodup := t.nodup.sublist (List.filter_sublist.map key)

variable {q : α → Prop} [DecidablePred q] {t t' : Table α key}

theorem mem_only {r : α} : r ∈ t.only q ↔ r ∈ t ∧ q r := by
  simp [← mem_rows, only]

theorem only_congr {q' : α → Prop} [DecidablePred q'] (h : ∀ r ∈ t, q r ↔ q' r) : t.only q = t.only q' := by
  ext1
  apply List.filter_congr
  intro r hr
  exact decide_eq_decide.mpr (h r hr)

/-! ## Statements -/

section Statements

variable {p : α → Prop} [DecidablePred p] {f : α → α}

theorem filter_map_other {rows : List α} (h : ∀ r ∈ rows, p r → ¬ q r ∧ ¬ q (f r)) :
    (rows.map fun r => if p r then f r else r).filter (fun r => q r) = rows.filter fun r => q r := by
  induction rows with
  | nil => rfl
  | cons r rows ih =>
    have hrest := ih fun s hs => h s (List.mem_cons_of_mem r hs)
    rw [List.map_cons]
    by_cases hguard : p r
    · obtain ⟨hbefore, hafter⟩ := h r List.mem_cons_self hguard
      rw [if_pos hguard, List.filter_cons_of_neg (by simpa using hafter), List.filter_cons_of_neg (by simpa using hbefore),
        hrest]
    · rw [if_neg hguard, List.filter_cons, List.filter_cons, hrest]

/-- An `UPDATE` of rows that are not in the restriction and do not get into it. -/
theorem only_update {hf : ∀ r, key r = key (f r)} (h : ∀ r ∈ t, p r → ¬ q r ∧ ¬ q (f r)) :
    (t.update p f hf).only q = t.only q := by
  ext1
  exact filter_map_other h

/-- A `DELETE` of rows that are not in the restriction. -/
theorem only_delete (h : ∀ r ∈ t, p r → ¬ q r) : (t.delete p).only q = t.only q := by
  ext1
  simp only [only, delete, List.filter_filter]
  apply List.filter_congr
  intro r hr
  by_cases hguard : p r
  · simp [hguard, h r hr hguard]
  · simp [hguard]

/-- An `INSERT` of a row that is not in the restriction. -/
theorem only_insert [DecidableEq κ] {r : α} (hins : t.insert r = some t') (h : ¬ q r) : t'.only q = t.only q := by
  ext1
  have hnew : [r].filter (fun r => q r) = [] := by simp [h]
  simp only [only, insert_rows hins, List.filter_append, hnew, List.append_nil]

end Statements

/-! ## Queries -/

section Queries

theorem find_only [DecidableEq κ] {k : κ} : (t.only q).find k = (t.find k).filter fun r => q r := by
  cases hfind : t.find k with
  | none =>
    rw [Option.filter_none]
    apply List.find?_eq_none.mpr
    intro r hr
    exact List.find?_eq_none.mp hfind r (List.mem_filter.mp hr).1
  | some r =>
    obtain ⟨hr, hkey⟩ := find_eq_some.mp hfind
    by_cases hq : q r
    · rw [Option.filter_some_pos (by simpa using hq)]
      exact find_eq_some.mpr ⟨mem_only.mpr ⟨hr, hq⟩, hkey⟩
    · rw [Option.filter_some_neg (by simpa using hq)]
      apply List.find?_eq_none.mpr
      intro s hs
      obtain ⟨hmem, hqs⟩ := mem_only.mp hs
      simp only [decide_eq_true_eq]
      intro hskey
      exact hq (eq_of_key hmem hr (hskey.trans hkey.symm) ▸ hqs)

/-- The row with a key that only rows of the restriction have. -/
theorem find_only_of [DecidableEq κ] {k : κ} (h : ∀ r ∈ t, key r = k → q r) : (t.only q).find k = t.find k := by
  rw [find_only]
  cases hfind : t.find k with
  | none => rfl
  | some r =>
    obtain ⟨hr, hkey⟩ := find_eq_some.mp hfind
    rw [Option.filter_some_pos (by simpa using h r hr hkey)]

theorem filter_only {p : α → Bool} (h : ∀ r ∈ t, p r = true → q r) : (t.only q).rows.filter p = t.rows.filter p := by
  rw [only, List.filter_filter]
  apply List.filter_congr
  intro r hr
  cases hp : p r with
  | false => rfl
  | true => simp [h r hr hp]

theorem find?_only {p : α → Bool} (h : ∀ r ∈ t, p r = true → q r) : (t.only q).rows.find? p = t.rows.find? p := by
  rw [← List.head?_filter, ← List.head?_filter, filter_only h]

theorem countP_only {p : α → Bool} (h : ∀ r ∈ t, p r = true → q r) : (t.only q).rows.countP p = t.rows.countP p := by
  rw [List.countP_eq_length_filter, List.countP_eq_length_filter, filter_only h]

theorem filterMap_only {g : α → Option β} (h : ∀ r ∈ t, (g r).isSome → q r) :
    (t.only q).rows.filterMap g = t.rows.filterMap g := by
  have hrows : ∀ rows : List α, (∀ r ∈ rows, (g r).isSome → q r) →
      (rows.filter fun r => q r).filterMap g = rows.filterMap g := by
    intro rows hrows
    induction rows with
    | nil => rfl
    | cons r rows ih =>
      have hrest := ih fun s hs => hrows s (List.mem_cons_of_mem r hs)
      by_cases hq : q r
      · rw [List.filter_cons_of_pos (by simpa using hq), List.filterMap_cons, List.filterMap_cons, hrest]
      · have hnone : g r = none := by
          rw [← Option.not_isSome_iff_eq_none]
          exact fun hsome => hq (hrows r List.mem_cons_self hsome)
        rw [List.filter_cons_of_neg (by simpa using hq), List.filterMap_cons, hnone, hrest]
  exact hrows t.rows h

end Queries

end Table
