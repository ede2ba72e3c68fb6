-- SUMMARY: Keyed tables of rows in insertion order, with the statements a SQL store runs on them.
import Mathlib.Data.List.Nodup
import Mathlib.Data.List.Basic
import Mathlib.Data.List.MinMax

/-!
# Keyed tables

A table is a list of rows in insertion order in which no two rows have the same
primary key. The operations are the statements of SQL that a store issues on one
table: `INSERT` (which fails on a duplicate key), `UPDATE ... WHERE`, which
reports how many rows it changed, and `DELETE ... WHERE`. Every operation keeps
the key constraint by construction, and every operation is described twice, by
membership and by lookup.
-/

variable {α κ : Type*} {key : α → κ}

/-- Rows in insertion order, no two of them with the same primary key. -/
structure Table (α : Type*) {κ : Type*} (key : α → κ) where
  rows : List α
  nodup : (rows.map key).Nodup

namespace Table

instance : Membership α (Table α key) := ⟨fun t r => r ∈ t.rows⟩

@[simp] theorem mem_rows {t : Table α key} {r : α} : r ∈ t.rows ↔ r ∈ t := Iff.rfl

@[ext] theorem ext {t u : Table α key} (h : t.rows = u.rows) : t = u := by
  cases t; cases u; simp_all

instance [DecidableEq α] : DecidableEq (Table α key) := fun _ _ =>
  decidable_of_iff _ Table.ext_iff.symm

def empty : Table α key := ⟨[], by simp⟩

instance : EmptyCollection (Table α key) := ⟨empty⟩

@[simp] theorem not_mem_empty {r : α} : ¬ r ∈ (∅ : Table α key) := List.not_mem_nil

/-- The primary key determines the row. -/
theorem eq_of_key {t : Table α key} {r s : α} (hr : r ∈ t) (hs : s ∈ t) (h : key r = key s) :
    r = s :=
  List.inj_on_of_nodup_map t.nodup hr hs h

theorem rows_nodup (t : Table α key) : t.rows.Nodup := List.Nodup.of_map key t.nodup

/-- A row stands at one place of its table. -/
theorem earlier_unique {t : Table α key} {earlier later earlier' later' : List α} {r : α}
    (h : t.rows = earlier ++ r :: later) (h' : t.rows = earlier' ++ r :: later') :
    earlier = earlier' ∧ later = later' := by
  have hrest : (earlier ++ r :: later).Nodup := h ▸ t.rows_nodup
  have hnot : r ∉ earlier ++ later := (List.nodup_cons.mp (List.nodup_middle.mp hrest)).1
  rw [List.mem_append, not_or] at hnot
  obtain ⟨hearlier, _, hlater⟩ := (List.append_cons_inj_of_notMem hnot.1 hnot.2).mp (h.symm.trans h')
  exact ⟨hearlier, hlater⟩

/-! ## Lookup -/

section Find

variable [DecidableEq κ]

/-- The row with primary key `k`. -/
def find (t : Table α key) (k : κ) : Option α := t.rows.find? (fun r => key r = k)

theorem find_mem {t : Table α key} {k : κ} {r : α} (h : t.find k = some r) : r ∈ t :=
  List.mem_of_find?_eq_some h

theorem find_key {t : Table α key} {k : κ} {r : α} (h : t.find k = some r) : key r = k := by
  simpa using List.find?_some h

theorem find_eq_some {t : Table α key} {k : κ} {r : α} :
    t.find k = some r ↔ r ∈ t ∧ key r = k := by
  constructor
  · exact fun h => ⟨find_mem h, find_key h⟩
  · rintro ⟨hr, rfl⟩
    cases hf : t.find (key r) with
    | none =>
      have hne := List.find?_eq_none.mp hf r hr
      simp at hne
    | some s => rw [eq_of_key (find_mem hf) hr (find_key hf)]

theorem mem_iff_find {t : Table α key} {r : α} : r ∈ t ↔ t.find (key r) = some r := by
  simp [find_eq_some]

end Find

/-! ## UPDATE -/

section Update

variable {p : α → Prop} [DecidablePred p] {f : α → α}

/-- An assignment that does not name the primary key leaves it as it is, by computation. -/
theorem key_kept (key : α → κ) (r : α) : key r = key r := rfl

/-- `UPDATE t SET f WHERE p`. The assignment never touches the primary key. -/
def update (t : Table α key) (p : α → Prop) [DecidablePred p] (f : α → α)
    (hf : ∀ r, key r = key (f r) := by exact Table.key_kept _) : Table α key where
  rows := t.rows.map fun r => if p r then f r else r
  nodup := by
    have : (key ∘ fun r => if p r then f r else r) = key := by
      funext r; by_cases h : p r <;> simp [h, ← hf]
    simpa [this] using t.nodup

/-- How many rows `UPDATE ... WHERE p` changes. -/
def count (t : Table α key) (p : α → Prop) [DecidablePred p] : Nat := t.rows.countP (fun r => p r)

theorem mem_update {t : Table α key} {hf : ∀ r, key r = key (f r)} {s : α} :
    s ∈ t.update p f hf ↔ ∃ r ∈ t, s = if p r then f r else r := by
  simp only [← mem_rows, update, List.mem_map, eq_comm]

/-- A row after an `UPDATE` has the key that it had before. -/
theorem of_mem_update {t : Table α key} {hf : ∀ r, key r = key (f r)} {s : α} (h : s ∈ t.update p f hf) :
    ∃ r ∈ t, key r = key s ∧ s = if p r then f r else r := by
  obtain ⟨r, hr, rfl⟩ := mem_update.mp h
  refine ⟨r, hr, ?_, rfl⟩
  split
  · exact hf r
  · rfl

theorem update_mem {t : Table α key} {hf : ∀ r, key r = key (f r)} {r : α} (hr : r ∈ t) :
    (if p r then f r else r) ∈ t.update p f hf := mem_update.mpr ⟨r, hr, rfl⟩

theorem mem_update_of_not {t : Table α key} {hf : ∀ r, key r = key (f r)} {r : α} (hr : r ∈ t) (hp : ¬ p r) :
    r ∈ t.update p f hf := mem_update.mpr ⟨r, hr, (if_neg hp).symm⟩

theorem mem_update_of {t : Table α key} {hf : ∀ r, key r = key (f r)} {r : α} (hr : r ∈ t) (hp : p r) :
    f r ∈ t.update p f hf := mem_update.mpr ⟨r, hr, (if_pos hp).symm⟩

theorem find_update [DecidableEq κ] {t : Table α key} {hf : ∀ r, key r = key (f r)} {k : κ} :
    (t.update p f hf).find k = (t.find k).map fun r => if p r then f r else r := by
  have hkey : ((fun s => decide (key s = k)) ∘ fun r => if p r then f r else r)
      = fun r => decide (key r = k) := by
    funext r; by_cases h : p r <;> simp [h, ← hf]
  simp only [find, update, List.find?_map, hkey]

/-- An `UPDATE` that assigns what is there leaves the table as it is. -/
theorem update_fixed {t : Table α key} {hf : ∀ r, key r = key (f r)} (h : ∀ r ∈ t, p r → f r = r) :
    t.update p f hf = t := by
  ext1
  simp only [update]
  conv_rhs => rw [← List.map_id t.rows]
  apply List.map_congr_left
  intro r hr
  by_cases hp : p r
  · rw [if_pos hp, h r hr hp, id]
  · rw [if_neg hp, id]

/-- An `UPDATE` whose condition no row meets leaves the table as it is. -/
theorem update_eq_self {t : Table α key} {hf : ∀ r, key r = key (f r)} (h : ∀ r ∈ t, ¬ p r) :
    t.update p f hf = t := update_fixed fun r hr hp => absurd hp (h r hr)

/-- Two `UPDATE`s that make the same assignment are one, if the assignment is made once and for all
    and does not decide what the second one changes. -/
theorem update_update {q : α → Prop} [DecidablePred q] {t : Table α key}
    {hf : ∀ r, key r = key (f r)} (hff : ∀ r, f (f r) = f r) (hq : ∀ r, q (f r) ↔ q r) :
    (t.update p f hf).update q f hf = t.update (fun r => p r ∨ q r) f hf := by
  ext1
  simp only [update, List.map_map]
  refine List.map_congr_left fun r _ => ?_
  by_cases hp : p r <;> by_cases hr : q r <;> simp [hp, hr, hff, hq]

/-- A condition that holds of fewer elements. -/
theorem countP_lt {q q' : α → Bool} {l : List α} (h : ∀ r ∈ l, q' r → q r) {r : α} (hr : r ∈ l) (hq : q r)
    (hq' : ¬ q' r) : l.countP q' < l.countP q := by
  induction l with
  | nil => cases hr
  | cons s l ih =>
    have hrest : l.countP q' ≤ l.countP q := List.countP_mono_left fun x hx => h x (List.mem_cons_of_mem s hx)
    rw [List.countP_cons, List.countP_cons]
    cases List.mem_cons.mp hr with
    | inl heq =>
      rw [← heq, if_pos hq, if_neg hq']
      omega
    | inr hr =>
      have hlt := ih (fun x hx => h x (List.mem_cons_of_mem s hx)) hr
      have hhead : (if q' s then 1 else 0) ≤ if q s then 1 else 0 := by
        split
        · rw [if_pos (h s List.mem_cons_self ‹_›)]
        · exact Nat.zero_le _
      omega

/-- An `UPDATE` that makes a row lose a condition, and none gain it. -/
theorem count_update_lt {q : α → Prop} [DecidablePred q] {t : Table α key} {hf : ∀ r, key r = key (f r)}
    (h : ∀ r ∈ t, p r → q (f r) → q r) {r : α} (hr : r ∈ t) (hp : p r) (hq : q r) (hlost : ¬ q (f r)) :
    (t.update p f hf).count q < t.count q := by
  unfold count
  simp only [update, List.countP_map]
  apply countP_lt (r := r)
  · intro s hs hafter
    by_cases hps : p s
    · simp only [Function.comp_apply, if_pos hps, decide_eq_true_eq] at hafter
      exact decide_eq_true (h s hs hps hafter)
    · simpa only [Function.comp_apply, if_neg hps] using hafter
  · exact hr
  · exact decide_eq_true hq
  · simpa only [Function.comp_apply, if_pos hp, decide_eq_true_eq] using hlost

/-- A condition that fixes the primary key holds of at most one row. -/
theorem count_eq_one [DecidableEq κ] {t : Table α key} {k : κ} (hp : ∀ r, p r → key r = k) :
    t.count p = 1 ↔ ∃ r, t.find k = some r ∧ p r := by
  have hle : t.count p ≤ 1 := by
    have hmap : t.count p ≤ (t.rows.map key).count k := by
      rw [List.count_eq_countP, List.countP_map]
      exact List.countP_mono_left fun r _ h => by simpa using hp r (by simpa using h)
    exact hmap.trans (List.nodup_iff_count_le_one.mp t.nodup k)
  constructor
  · intro h
    have hpos : 0 < t.rows.countP (fun r => decide (p r)) := by
      change 0 < t.count p
      omega
    obtain ⟨r, hr, hpr⟩ := List.countP_pos_iff.mp hpos
    have hpr : p r := by simpa using hpr
    exact ⟨r, find_eq_some.mpr ⟨hr, hp r hpr⟩, hpr⟩
  · rintro ⟨r, hr, hpr⟩
    have : 0 < t.count p := List.countP_pos_iff.mpr ⟨r, find_mem hr, by simpa using hpr⟩
    omega

end Update

/-! ## INSERT -/

section Insert

variable [DecidableEq κ]

/-- `INSERT INTO t VALUES r`, which fails when the primary key is taken. -/
def insert (t : Table α key) (r : α) : Option (Table α key) :=
  if h : key r ∈ t.rows.map key then none
  else some ⟨t.rows ++ [r], by
    rw [List.map_append, List.map_singleton, ← List.concat_eq_append]
    exact List.Nodup.concat h t.nodup⟩

theorem insert_rows {t u : Table α key} {r : α} (h : t.insert r = some u) :
    u.rows = t.rows ++ [r] := by
  unfold insert at h
  split at h
  · cases h
  · cases h; rfl

theorem mem_insert {t u : Table α key} {r s : α} (h : t.insert r = some u) :
    s ∈ u ↔ s ∈ t ∨ s = r := by
  simp [← mem_rows, insert_rows h]

theorem insert_fresh {t u : Table α key} {r : α} (h : t.insert r = some u) :
    ∀ s ∈ t, key s ≠ key r := by
  unfold insert at h
  split at h
  · cases h
  · rename_i hnot
    intro s hs he
    exact hnot (List.mem_map.mpr ⟨s, hs, he⟩)

theorem insert_isSome {t : Table α key} {r : α} (h : ∀ s ∈ t, key s ≠ key r) :
    ∃ u, t.insert r = some u := by
  unfold insert
  split
  · rename_i hmem
    obtain ⟨s, hs, he⟩ := List.mem_map.mp hmem
    exact absurd he (h s hs)
  · exact ⟨_, rfl⟩

/-- A row whose key is taken cannot be inserted. -/
theorem insert_taken {t : Table α key} {r s : α} (hs : s ∈ t) (h : key s = key r) : t.insert r = none := by
  unfold insert
  rw [dif_pos (List.mem_map.mpr ⟨s, hs, h⟩)]

/-- An `INSERT` is refused exactly when the key is taken. -/
theorem insert_eq_none {t : Table α key} {r : α} : t.insert r = none ↔ ∃ s ∈ t, key s = key r := by
  constructor
  · intro h
    by_contra hfree
    obtain ⟨u, hu⟩ := insert_isSome (t := t) (r := r) fun s hs he => hfree ⟨s, hs, he⟩
    exact absurd (h.symm.trans hu) nofun
  · rintro ⟨s, hs, he⟩
    exact insert_taken hs he

/-- After an `INSERT OR IGNORE` the key of the row is taken. -/
theorem taken_of_insert {t u : Table α key} {r : α} (h : t.insert r = some u) : ∃ s ∈ u, key s = key r :=
  ⟨r, (mem_insert h).mpr (.inr rfl), rfl⟩

/-- `INSERT OR IGNORE` into a table whose rows are their own keys. -/
theorem mem_insertOrIgnore {α : Type*} [DecidableEq α] {t : Table α id} {r s : α} :
    s ∈ (t.insert r).getD t ↔ s ∈ t ∨ s = r := by
  cases h : t.insert r with
  | some u => exact mem_insert h
  | none =>
    have hmem : r ∈ t := by
      by_contra hnot
      obtain ⟨u, hu⟩ := insert_isSome (t := t) (r := r) fun s hs (he : s = r) => hnot (he ▸ hs)
      rw [h] at hu
      cases hu
    constructor
    · exact .inl
    · rintro (hs | rfl)
      · exact hs
      · exact hmem

end Insert

/-! ## DELETE -/

section Delete

variable {p : α → Prop} [DecidablePred p]

/-- `DELETE FROM t WHERE p`. -/
def delete (t : Table α key) (p : α → Prop) [DecidablePred p] : Table α key where
  rows := t.rows.filter fun r => ¬ p r
  nodup := t.nodup.sublist (List.filter_sublist.map key)

theorem mem_delete {t : Table α key} {r : α} : r ∈ t.delete p ↔ r ∈ t ∧ ¬ p r := by
  simp [← mem_rows, delete]

end Delete

end Table
