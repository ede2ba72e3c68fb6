-- SUMMARY: References between keyed tables, and how each statement of a SQL store keeps them.
import Supermemory.Library.Table

/-!
# References

A column of one table refers to the primary key of another one. What a statement can do
to a reference is said in two parts: the rows of the referring table refer to nothing
new, and the table referred to keeps its keys. A row may be inserted when what it refers
to is there, and rows may be deleted with everything that refers to them.
-/

variable {α β κ κ' : Type*} {key : α → κ} {key' : β → κ'}

namespace Table

/-- Every key that a row refers to is the key of a row, as `FOREIGN KEY .. REFERENCES` has it. A row
    whose column is `NULL` refers to nothing. -/
def Refers (t : Table α key) (column : α → Option κ') (u : Table β key') : Prop :=
  ∀ r ∈ t, ∀ k ∈ column r, ∃ s ∈ u, key' s = k

/-- The rows of the second table refer to nothing that the rows of the first do not refer to. -/
def Narrows (column : α → Option κ') (t t' : Table α key) : Prop :=
  ∀ r' ∈ t', ∃ r ∈ t, column r' = column r

/-- Every key of the first table is a key of the second. -/
def Retains (u u' : Table β key') : Prop := ∀ s ∈ u, ∃ s' ∈ u', key' s' = key' s

variable {column : α → Option κ'} {t t' t'' : Table α key} {u u' u'' : Table β key'}

theorem Narrows.refl : t.Narrows column t := fun r hr => ⟨r, hr, rfl⟩

theorem Narrows.of_eq (h : t' = t) : t.Narrows column t' := h ▸ .refl

theorem Narrows.trans (h : t.Narrows column t') (h' : t'.Narrows column t'') : t.Narrows column t'' := by
  intro r'' hr''
  obtain ⟨r', hr', heq'⟩ := h' r'' hr''
  obtain ⟨r, hr, heq⟩ := h r' hr'
  exact ⟨r, hr, heq'.trans heq⟩

theorem Retains.refl : u.Retains u := fun s hs => ⟨s, hs, rfl⟩

theorem Retains.of_eq (h : u' = u) : u.Retains u' := h ▸ .refl

theorem Retains.trans (h : u.Retains u') (h' : u'.Retains u'') : u.Retains u'' := by
  intro s hs
  obtain ⟨s', hs', hkey⟩ := h s hs
  obtain ⟨s'', hs'', hkey'⟩ := h' s' hs'
  exact ⟨s'', hs'', hkey'.trans hkey⟩

/-- A step that neither makes new references nor loses keys keeps every reference. -/
theorem Refers.step (h : t.Refers column u) (ht : t.Narrows column t') (hu : u.Retains u') :
    t'.Refers column u' := by
  intro r' hr' k hk
  obtain ⟨r, hr, heq⟩ := ht r' hr'
  obtain ⟨s, hs, rfl⟩ := h r hr k (heq ▸ hk)
  exact hu s hs

/-! ## Statements -/

section Update

variable {p : α → Prop} [DecidablePred p] {f : α → α} {q : β → Prop} [DecidablePred q] {g : β → β}

/-- An `UPDATE` that does not assign the column. -/
theorem Narrows.update {hf : ∀ r, key r = key (f r)} (h : ∀ r ∈ t, p r → column (f r) = column r) :
    t.Narrows column (t.update p f hf) := by
  intro r' hr'
  obtain ⟨r, hr, _, rfl⟩ := of_mem_update hr'
  refine ⟨r, hr, ?_⟩
  split
  · rename_i hguard
    exact h r hr hguard
  · rfl

/-- No `UPDATE` assigns the primary key. -/
theorem Retains.update {hg : ∀ s, key' s = key' (g s)} : u.Retains (u.update q g hg) := by
  intro s hs
  refine ⟨_, update_mem hs, ?_⟩
  split
  · exact (hg s).symm
  · rfl

end Update

section Insert

theorem Retains.insert [DecidableEq κ'] {s : β} (h : u.insert s = some u') : u.Retains u' :=
  fun r hr => ⟨r, (mem_insert h).mpr (.inl hr), rfl⟩

/-- An `INSERT` of a row that refers to rows that are there. -/
theorem Refers.insert [DecidableEq κ] {r : α} (h : t.Refers column u) (hins : t.insert r = some t')
    (hrow : ∀ k ∈ column r, ∃ s ∈ u, key' s = k) : t'.Refers column u := by
  intro r' hr'
  cases (mem_insert hins).mp hr' with
  | inl hold => exact h r' hold
  | inr hnew => exact hnew ▸ hrow

/-- The same for a column that is never `NULL`. -/
theorem Refers.insertTotal [DecidableEq κ] {ref : α → κ'} {r : α} (h : t.Refers (fun r => some (ref r)) u)
    (hins : t.insert r = some t') (hrow : ∃ s ∈ u, key' s = ref r) : t'.Refers (fun r => some (ref r)) u := by
  refine h.insert hins fun k hk => ?_
  rw [← Option.some_inj.mp (Option.mem_def.mp hk)]
  exact hrow

end Insert

section Delete

variable {p : α → Prop} [DecidablePred p] {q : β → Prop} [DecidablePred q]

theorem Narrows.delete : t.Narrows column (t.delete p) :=
  fun r hr => ⟨r, (mem_delete.mp hr).1, rfl⟩

/-- `ON DELETE CASCADE`: the rows that refer to a deleted row are deleted with it. -/
theorem Refers.cascade (h : t.Refers column u)
    (hcascade : ∀ r ∈ t, ∀ s ∈ u, column r = some (key' s) → q s → p r) :
    (t.delete p).Refers column (u.delete q) := by
  intro r hr k hk
  obtain ⟨hmem, hkept⟩ := mem_delete.mp hr
  obtain ⟨s, hs, rfl⟩ := h r hmem k hk
  exact ⟨s, mem_delete.mpr ⟨hs, fun hq => hkept (hcascade r hmem s hs hk hq)⟩, rfl⟩

end Delete

/-- Where nothing has a key, nothing refers to it. -/
theorem Refers.absent (h : t.Refers column u) {k : κ'} (habsent : ∀ s ∈ u, key' s ≠ k) {r : α} (hr : r ∈ t) :
    column r ≠ some k := by
  intro hcolumn
  obtain ⟨s, hs, hkey⟩ := h r hr k hcolumn
  exact habsent s hs hkey

end Table
