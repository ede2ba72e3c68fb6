-- SUMMARY: The budget of a response: what is admitted, in what form, and what is left out.
import Supermemory.Server.HybridSearch

/-!
# The context budget

Results pass a budget one after the other. The first pass of a result may only reduce its
optional fields, so what is admitted keeps its facts, and what was spent on the results
before decides what is left for the next.
-/

namespace Server

section Budget

variable {σ : Type} {serializedLen : SearchResult σ → Option Nat} {budget : Nat} {results : List (SearchResult σ)}

-- ---------------------------------------------------------------------------
-- One result
-- ---------------------------------------------------------------------------

/-- What a result says: its key, its text, its similarity and its version. -/
def SearchResult.fact : SearchResult σ → String × String × σ × Nat
  | memory result => ("m:" ++ result.id, result.memory, result.similarity, result.version)
  | chunk result => ("c:" ++ result.id, result.chunk, result.similarity, result.version)

@[simp] theorem SearchResult.reduceOptionalFields_fact (result : SearchResult σ) :
    result.reduceOptionalFields.fact = result.fact := by
  cases result <;> rfl

/-- The form in which a result is measured against what is left. -/
def measured (serializedLen : SearchResult σ → Option Nat) (remaining : Nat) (result : SearchResult σ) :
    SearchResult σ :=
  if contextBytes serializedLen result > remaining then result.reduceOptionalFields else result

/-- Whether a measured result is admitted. -/
def Fits (serializedLen : SearchResult σ → Option Nat) (remaining : Nat) (result : SearchResult σ) : Prop :=
  contextBytes serializedLen result ≤ remaining ∧ contextBytes serializedLen result ≤ maxResultContextBytes

instance (serializedLen : SearchResult σ → Option Nat) (remaining : Nat) (result : SearchResult σ) :
    Decidable (Fits serializedLen remaining result) := inferInstanceAs (Decidable (_ ∧ _))

theorem fitSearchContext_cons (remaining : Nat) (result : SearchResult σ) (rest : List (SearchResult σ)) :
    fitSearchContext serializedLen remaining (result :: rest) =
      if Fits serializedLen remaining (measured serializedLen remaining result) then
        measured serializedLen remaining result ::
          fitSearchContext serializedLen
            (remaining - contextBytes serializedLen (measured serializedLen remaining result)) rest
      else fitSearchContext serializedLen remaining rest := by
  rw [fitSearchContext]
  by_cases h : Fits serializedLen remaining (measured serializedLen remaining result)
  · rw [if_pos h]
    exact if_neg (not_or.mpr ⟨Nat.not_lt.mpr h.1, Nat.not_lt.mpr h.2⟩)
  · rw [if_neg h]
    apply if_pos
    rcases Nat.lt_or_ge remaining (contextBytes serializedLen (measured serializedLen remaining result)) with hover | hfits
    · exact .inl hover
    · exact .inr (Nat.lt_of_not_le fun hmax => h ⟨hfits, hmax⟩)

/-- What is measured and admitted is serialized. -/
theorem Fits.serialized {remaining : Nat} {result : SearchResult σ} (h : Fits serializedLen remaining result) :
    ∃ bytes ∈ serializedLen result, bytes ≤ maxResultContextBytes := by
  have hmax := h.2
  unfold contextBytes at hmax
  cases hlen : serializedLen result with
  | none =>
    rw [hlen] at hmax
    exact absurd hmax (by decide)
  | some bytes =>
    rw [hlen] at hmax
    exact ⟨bytes, rfl, hmax⟩

-- ---------------------------------------------------------------------------
-- What is spent
-- ---------------------------------------------------------------------------

/-- The length of all results together. -/
def totalBytes (serializedLen : SearchResult σ → Option Nat) (results : List (SearchResult σ)) : Nat :=
  (results.map (contextBytes serializedLen)).sum

theorem fitSearchContext_total (serializedLen : SearchResult σ → Option Nat) (budget : Nat)
    (results : List (SearchResult σ)) :
    totalBytes serializedLen (fitSearchContext serializedLen budget results) ≤ budget := by
  induction results generalizing budget with
  | nil => exact Nat.zero_le _
  | cons result rest ih =>
    rw [fitSearchContext_cons]
    split
    case isTrue hfits =>
      have hrest := ih (budget - contextBytes serializedLen (measured serializedLen budget result))
      have hle := hfits.1
      rw [totalBytes, List.map_cons, List.sum_cons]
      unfold totalBytes at hrest
      omega
    case isFalse => exact ih budget

theorem fitSearchContext_serialized {result : SearchResult σ}
    (h : result ∈ fitSearchContext serializedLen budget results) :
    ∃ bytes ∈ serializedLen result, bytes ≤ maxResultContextBytes := by
  induction results generalizing budget with
  | nil => cases h
  | cons first rest ih =>
    rw [fitSearchContext_cons] at h
    split at h
    case isTrue hfits =>
      rcases List.mem_cons.mp h with rfl | hrest
      · exact hfits.serialized
      · exact ih hrest
    case isFalse => exact ih h

/-- Subtraction of unsigned integers, which does not go below zero. -/
def checkedSub (a b : Nat) : Option Nat := if b ≤ a then some (a - b) else none

/-- The budgeting that stops where the remainder would underflow. -/
def fitSearchContextChecked (serializedLen : SearchResult σ → Option Nat) :
    Nat → List (SearchResult σ) → Option (List (SearchResult σ))
  | _, [] => some []
  | remaining, result :: rest =>
    let result := if contextBytes serializedLen result > remaining then result.reduceOptionalFields else result
    let bytes := contextBytes serializedLen result
    if bytes > remaining ∨ bytes > maxResultContextBytes then fitSearchContextChecked serializedLen remaining rest
    else
      (checkedSub remaining bytes).bind fun remaining =>
        (fitSearchContextChecked serializedLen remaining rest).map (result :: ·)

/-- The remainder never underflows. -/
theorem fitSearchContextChecked_eq_some (serializedLen : SearchResult σ → Option Nat) (budget : Nat)
    (results : List (SearchResult σ)) :
    fitSearchContextChecked serializedLen budget results = some (fitSearchContext serializedLen budget results) := by
  induction results generalizing budget with
  | nil => rfl
  | cons result rest ih =>
    rw [fitSearchContext_cons]
    split
    case isTrue hfits =>
      have hadmits : ¬ (contextBytes serializedLen (measured serializedLen budget result) > budget ∨
          contextBytes serializedLen (measured serializedLen budget result) > maxResultContextBytes) :=
        not_or.mpr ⟨Nat.not_lt.mpr hfits.1, Nat.not_lt.mpr hfits.2⟩
      refine (if_neg hadmits).trans ?_
      change (checkedSub budget (contextBytes serializedLen (measured serializedLen budget result))).bind _ = _
      rw [checkedSub, if_pos hfits.1, Option.bind_some, ih]
      rfl
    case isFalse hfits =>
      have homits : contextBytes serializedLen (measured serializedLen budget result) > budget ∨
          contextBytes serializedLen (measured serializedLen budget result) > maxResultContextBytes := by
        unfold Fits at hfits
        omega
      exact (if_pos homits).trans (ih budget)

/-- The budget keeps order and facts, and no limit is exceeded. -/
theorem fitSearchContext_safe (serializedLen : SearchResult σ → Option Nat) (results : List (SearchResult σ)) :
    List.SublistForall₂
      (fun result whole => (result = whole ∨ result = whole.reduceOptionalFields) ∧ result.fact = whole.fact)
      (fitSearchContext serializedLen searchContextBudgetBytes results) results ∧
    (∀ result ∈ fitSearchContext serializedLen searchContextBudgetBytes results,
      ∃ bytes ∈ serializedLen result, bytes ≤ 2500) ∧
    totalBytes serializedLen (fitSearchContext serializedLen searchContextBudgetBytes results) ≤ 5000 ∧
    fitSearchContextChecked serializedLen searchContextBudgetBytes results =
      some (fitSearchContext serializedLen searchContextBudgetBytes results) := by
  refine ⟨?_, fun _ h => fitSearchContext_serialized h, fitSearchContext_total _ _ _,
    fitSearchContextChecked_eq_some _ _ _⟩
  apply Selection.imp _ fitSearchContext_selection
  rintro result whole (rfl | rfl)
  · exact ⟨.inl rfl, rfl⟩
  · exact ⟨.inr rfl, whole.reduceOptionalFields_fact⟩

-- ---------------------------------------------------------------------------
-- What is left out
-- ---------------------------------------------------------------------------

/-- What the results before leave of the budget. -/
def remainingBytes (serializedLen : SearchResult σ → Option Nat) (budget : Nat) (results : List (SearchResult σ)) : Nat :=
  budget - totalBytes serializedLen (fitSearchContext serializedLen budget results)

/-- A list is budgeted in two parts. -/
theorem fitSearchContext_append (serializedLen : SearchResult σ → Option Nat) (budget : Nat)
    (earlier rest : List (SearchResult σ)) :
    fitSearchContext serializedLen budget (earlier ++ rest) = fitSearchContext serializedLen budget earlier ++
      fitSearchContext serializedLen (remainingBytes serializedLen budget earlier) rest := by
  induction earlier generalizing budget with
  | nil => rfl
  | cons result earlier ih =>
    rw [List.cons_append, remainingBytes, fitSearchContext_cons, fitSearchContext_cons]
    split
    case isTrue =>
      rw [ih, totalBytes, List.map_cons, List.sum_cons, ← Nat.sub_sub]
      rfl
    case isFalse => exact ih budget

/-- The result after some others is omitted. -/
def Omits (serializedLen : SearchResult σ → Option Nat) (budget : Nat) (earlier : List (SearchResult σ))
    (result : SearchResult σ) : Prop :=
  fitSearchContext serializedLen budget (earlier ++ [result]) = fitSearchContext serializedLen budget earlier

theorem omits_iff {earlier : List (SearchResult σ)} {result : SearchResult σ} :
    Omits serializedLen budget earlier result ↔
      ¬ Fits serializedLen (remainingBytes serializedLen budget earlier)
        (measured serializedLen (remainingBytes serializedLen budget earlier) result) := by
  rw [Omits, fitSearchContext_append, List.append_right_eq_self, fitSearchContext_cons]
  split
  case isTrue hfits => exact iff_of_false (List.cons_ne_nil _ _) (not_not_intro hfits)
  case isFalse hfits => exact iff_of_true rfl hfits

/-- Nothing of the result fits. -/
def NothingFits (serializedLen : SearchResult σ → Option Nat) (remaining : Nat) (result : SearchResult σ) : Prop :=
  2500 < contextBytes serializedLen result.reduceOptionalFields ∨
    remaining < contextBytes serializedLen result.reduceOptionalFields

/-- A result too long for one, but not for what is left, that would fit without its optional fields. -/
def Unreduced (serializedLen : SearchResult σ → Option Nat) (remaining : Nat) (result : SearchResult σ) : Prop :=
  contextBytes serializedLen result.reduceOptionalFields ≤ 2500 ∧ 2500 < contextBytes serializedLen result ∧
    contextBytes serializedLen result ≤ remaining

theorem omits_nothingFits_iff {earlier : List (SearchResult σ)} {result : SearchResult σ} :
    (Omits serializedLen budget earlier result →
      NothingFits serializedLen (remainingBytes serializedLen budget earlier) result) ↔
      ¬ Unreduced serializedLen (remainingBytes serializedLen budget earlier) result := by
  have hmax : maxResultContextBytes = 2500 := rfl
  rw [omits_iff]
  generalize remainingBytes serializedLen budget earlier = remaining
  unfold measured Fits NothingFits Unreduced
  split
  case isTrue hlong => omega
  case isFalse hshort => omega

/-- Results are left out only when nothing of them fits, unless one is not reduced where it should be. -/
theorem fitSearchContext_omits_iff (serializedLen : SearchResult σ → Option Nat) (results : List (SearchResult σ)) :
    (∀ earlier result later, results = earlier ++ result :: later →
      Omits serializedLen searchContextBudgetBytes earlier result →
        NothingFits serializedLen (remainingBytes serializedLen searchContextBudgetBytes earlier) result) ↔
      ∀ earlier result later, results = earlier ++ result :: later →
        ¬ Unreduced serializedLen (remainingBytes serializedLen searchContextBudgetBytes earlier) result := by
  constructor
  · intro h earlier result later hsplit
    exact omits_nothingFits_iff.mp (h earlier result later hsplit)
  · intro h earlier result later hsplit
    exact omits_nothingFits_iff.mpr (h earlier result later hsplit)

end Budget

/-- A memory with a long note in its metadata. -/
def longResult : SearchResult Nat :=
  .memory
    { id := "memory"
      memory := "It rains."
      metadata := some [("note", .string (String.ofList (List.replicate 2792 'a')))]
      updatedAt := 0
      similarity := 0
      version := 1
      rootMemoryId := none
      context := ⟨[], [], []⟩
      documents := []
      chunks := [] }

/-- The length of that memory, and its length without metadata. -/
def longResultLen : SearchResult Nat → Option Nat
  | .memory { metadata := some _, .. } => some 3000
  | _ => some 201

/-- The whole budget is left, and the result is left out although its reduced form takes 201 bytes. -/
theorem fitSearchContext_omits_reducible :
    Omits longResultLen searchContextBudgetBytes [] longResult ∧
      ¬ NothingFits longResultLen (remainingBytes longResultLen searchContextBudgetBytes []) longResult := by
  constructor
  · rfl
  · unfold NothingFits
    decide

end Server
