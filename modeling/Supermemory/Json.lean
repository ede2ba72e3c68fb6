-- SUMMARY: JSON values and objects in insertion order, as `serde_json` keeps them.
import Mathlib.Tactic.TypeStar

/-!
# JSON

A value is kept as parsed. Numbers keep the text they serialize to, and an object
keeps its fields in insertion order, so that two values serialize to the same text
exactly when they are equal.
-/

/-- `serde_json::Value`. -/
inductive Value where
  | null
  | bool (value : Bool)
  | number (text : String)
  | string (text : String)
  | array (items : List Value)
  | object (fields : List (String × Value))

namespace Value

mutual

def decEq : (a b : Value) → Decidable (a = b)
  | null, null => isTrue rfl
  | bool a, bool b => decidable_of_iff (a = b) (by simp)
  | number a, number b => decidable_of_iff (a = b) (by simp)
  | string a, string b => decidable_of_iff (a = b) (by simp)
  | array a, array b =>
    match decEqItems a b with
    | isTrue h => isTrue (h ▸ rfl)
    | isFalse h => isFalse (by simpa using h)
  | object a, object b =>
    match decEqFields a b with
    | isTrue h => isTrue (h ▸ rfl)
    | isFalse h => isFalse (by simpa using h)
  | null, bool _ | null, number _ | null, string _ | null, array _ | null, object _
  | bool _, null | bool _, number _ | bool _, string _ | bool _, array _ | bool _, object _
  | number _, null | number _, bool _ | number _, string _ | number _, array _ | number _, object _
  | string _, null | string _, bool _ | string _, number _ | string _, array _ | string _, object _
  | array _, null | array _, bool _ | array _, number _ | array _, string _ | array _, object _
  | object _, null | object _, bool _ | object _, number _ | object _, string _
  | object _, array _ => isFalse (by simp)

def decEqItems : (a b : List Value) → Decidable (a = b)
  | [], [] => isTrue rfl
  | [], _ :: _ | _ :: _, [] => isFalse (by simp)
  | a :: as, b :: bs =>
    match decEq a b, decEqItems as bs with
    | isTrue h, isTrue hs => isTrue (h ▸ hs ▸ rfl)
    | isFalse h, _ => isFalse (by simp [h])
    | _, isFalse hs => isFalse (by simp [hs])

def decEqFields : (a b : List (String × Value)) → Decidable (a = b)
  | [], [] => isTrue rfl
  | [], _ :: _ | _ :: _, [] => isFalse (by simp)
  | (k, a) :: as, (l, b) :: bs =>
    match decEq a b, decEqFields as bs with
    | isTrue h, isTrue hs =>
      if hk : k = l then isTrue (hk ▸ h ▸ hs ▸ rfl) else isFalse (by simp [hk])
    | isFalse h, _ => isFalse (by simp [h])
    | _, isFalse hs => isFalse (by simp [hs])

end

instance : DecidableEq Value := decEq

/-- `Value::as_str`. -/
def asStr : Value → Option String
  | string text => some text
  | _ => none

/-- `Value::as_object`. -/
def asObject : Value → Option (List (String × Value))
  | object fields => some fields
  | _ => none

end Value

/-- `serde_json::Map`: fields in insertion order. -/
abbrev Object := List (String × Value)

namespace Object

def get (o : Object) (key : String) : Option Value := o.lookup key

theorem get_cons (field : String × Value) (o : Object) (key : String) :
    get (field :: o) key = if key = field.1 then some field.2 else o.get key := by
  unfold get
  rw [List.lookup_cons]
  split <;> simp_all

/-- A field that is present keeps its place, a new one comes last. -/
def insert (o : Object) (key : String) (value : Value) : Object :=
  if o.any (fun field => field.1 = key) then
    o.map fun field => if field.1 = key then (key, value) else field
  else o ++ [(key, value)]

/-- What an insertion makes of a field that is there. -/
def setField (field entry : String × Value) : String × Value := if entry.1 = field.1 then field else entry

@[simp] theorem setField_key (field entry : String × Value) : (setField field entry).1 = entry.1 := by
  unfold setField
  split
  · exact Eq.symm ‹_›
  · rfl

/-- The field after all insertions. -/
def setFields (incoming : Object) (entry : String × Value) : String × Value :=
  incoming.foldl (fun entry field => setField field entry) entry

theorem setFields_append (incoming : Object) (field entry : String × Value) :
    setFields (incoming ++ [field]) entry = setField field (setFields incoming entry) := by
  simp [setFields]

@[simp] theorem setFields_key (incoming : Object) (entry : String × Value) :
    (setFields incoming entry).1 = entry.1 := by
  induction incoming generalizing entry with
  | nil => rfl
  | cons field rest ih => exact (ih _).trans (setField_key field entry)

theorem insert_present {o : Object} {field : String × Value} (h : ∃ entry ∈ o, entry.1 = field.1) :
    o.insert field.1 field.2 = o.map (setField field) := by
  unfold Object.insert
  rw [if_pos (List.any_eq_true.mpr (by simpa using h))]
  rfl

theorem mem_insert {o : Object} {field entry : String × Value} (h : entry ∈ o.insert field.1 field.2) :
    entry = field ∨ entry ∈ o ∧ entry.1 ≠ field.1 := by
  unfold Object.insert at h
  split at h
  · obtain ⟨old, hold, rfl⟩ := List.mem_map.mp h
    split
    · exact .inl rfl
    · exact .inr ⟨hold, ‹_›⟩
  · rename_i habsent
    rcases List.mem_append.mp h with hold | hnew
    · refine .inr ⟨hold, fun hkey => habsent (List.any_eq_true.mpr ⟨entry, hold, ?_⟩)⟩
      simpa using hkey
    · exact .inl (List.mem_singleton.mp hnew)

theorem mem_insert_self (o : Object) (field : String × Value) :
    ∃ entry ∈ o.insert field.1 field.2, entry.1 = field.1 := by
  by_cases h : ∃ entry ∈ o, entry.1 = field.1
  · obtain ⟨entry, hentry, hkey⟩ := h
    rw [insert_present ⟨entry, hentry, hkey⟩]
    exact ⟨_, List.mem_map_of_mem hentry, (setField_key field entry).trans hkey⟩
  · unfold Object.insert
    rw [if_neg (by simpa using h)]
    exact ⟨field, List.mem_append_right o List.mem_cons_self, rfl⟩

theorem insert_keeps_key {o : Object} (field : String × Value) {entry : String × Value} (hentry : entry ∈ o) :
    ∃ kept ∈ o.insert field.1 field.2, kept.1 = entry.1 := by
  by_cases h : ∃ entry ∈ o, entry.1 = field.1
  · rw [insert_present h]
    exact ⟨_, List.mem_map_of_mem hentry, setField_key field entry⟩
  · unfold Object.insert
    rw [if_neg (by simpa using h)]
    exact ⟨entry, List.mem_append_left _ hentry, rfl⟩

end Object
