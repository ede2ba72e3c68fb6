-- SUMMARY: The text that an extraction is cached as, and how it is read again.
import Supermemory.JsonText
import Supermemory.Server.MemoryExtractionCoordinator

/-!
# The cache of an extraction

The candidates of a response are cached as a JSON text, which a later attempt reads instead
of asking the provider again. A candidate is read with the rules that are derived for its
type: no field is unknown, no field comes twice, and some fields may be absent.
-/

namespace Server

-- ---------------------------------------------------------------------------
-- Writing
-- ---------------------------------------------------------------------------

def ParentRelation.toValue (parent : ParentRelation) : Value :=
  .object [("memoryId", .string parent.memoryId), ("relation", .string parent.relation.asStr)]

def MemoryCandidate.toValue (candidate : MemoryCandidate) : Value :=
  .object
    [("tmpId", .string candidate.tmpId),
      ("memory", .string candidate.memory),
      ("isInferred", .bool candidate.isInferred),
      ("addToStaticProfile", .bool candidate.addToStaticProfile),
      ("buckets", stringsValue candidate.buckets),
      ("parentRelations", .array (candidate.parentRelations.map ParentRelation.toValue)),
      ("temporalContext", optionalValue TemporalContext.toValue candidate.temporalContext),
      ("forgetAfter", optionalValue .string candidate.forgetAfter),
      ("forgetReason", optionalValue .string candidate.forgetReason)]

def candidatesValue (candidates : List MemoryCandidate) : Value := .array (candidates.map MemoryCandidate.toValue)

-- ---------------------------------------------------------------------------
-- Reading
-- ---------------------------------------------------------------------------

/-- How a structure is read: the fields of an object, none of them twice, or the items of an array, the first
    ones of which are required. -/
def readStruct (names : List String) (required : Nat) (denyUnknownFields : Bool) : Value → Option (String → Option Value)
  | .object fields =>
    if ((fields.map (·.1)).filter (· ∈ names)).Nodup ∧ (denyUnknownFields = true → ∀ field ∈ fields, field.1 ∈ names) then
      some (Object.get fields)
    else none
  | .array items =>
    if required ≤ items.length ∧ items.length ≤ names.length then some fun name => items[names.idxOf name]? else none
  | _ => none

def asBool : Value → Option Bool
  | .bool value => some value
  | _ => none

/-- `Vec<T>`. -/
def readVec {α : Type} (read : Value → Option α) : Value → Option (List α)
  | .array items => items.mapM read
  | _ => none

/-- `Option<T>`, which is also `None` where the field is absent. -/
def readOption {α : Type} (read : Value → Option α) : Option Value → Option (Option α)
  | none | some .null => some none
  | some value => (read value).map some

/-- `#[serde(default)]`. -/
def readDefault {α : Type} (read : Value → Option (List α)) : Option Value → Option (List α)
  | none => some []
  | some value => read value

/-- A date, or the texts among the items of an array. -/
def deserializeEventDates : Value → Option (List String)
  | .string date => some [date]
  | .array dates => some (dates.filterMap Value.asStr)
  | _ => none

def TemporalContext.fromValue (value : Value) : Option TemporalContext := do
  let field ← readStruct ["documentDate", "eventDate"] 1 false value
  let documentDate ← readOption Value.asStr (field "documentDate")
  return { documentDate, eventDate := (field "eventDate").bind deserializeEventDates }

def relationKindNamed : String → Option RelationKind
  | "updates" => some .updates
  | "extends" => some .extends
  | "derives" => some .derives
  | _ => none

/-- The name of a variant, alone or with nothing in it. -/
def RelationKind.fromValue : Value → Option RelationKind
  | .string name | .object [(name, .null)] => relationKindNamed name
  | _ => none

def ParentRelation.fromValue (value : Value) : Option ParentRelation := do
  let field ← readStruct ["memoryId", "relation"] 2 false value
  let memoryId ← (field "memoryId").bind Value.asStr
  let relation ← (field "relation").bind RelationKind.fromValue
  return { memoryId, relation }

def MemoryCandidate.fromValue (value : Value) : Option MemoryCandidate := do
  let field ← readStruct
    ["tmpId", "memory", "isInferred", "addToStaticProfile", "buckets", "parentRelations", "temporalContext", "forgetAfter",
      "forgetReason"] 9 true value
  let tmpId ← (field "tmpId").bind Value.asStr
  let memory ← (field "memory").bind Value.asStr
  let isInferred ← (field "isInferred").bind asBool
  let addToStaticProfile ← (field "addToStaticProfile").bind asBool
  let buckets ← readDefault (readVec Value.asStr) (field "buckets")
  let parentRelations ← readDefault (readVec ParentRelation.fromValue) (field "parentRelations")
  let temporalContext ← readOption TemporalContext.fromValue (field "temporalContext")
  let forgetAfter ← readOption Value.asStr (field "forgetAfter")
  let forgetReason ← readOption Value.asStr (field "forgetReason")
  return { tmpId, memory, isInferred, addToStaticProfile, buckets, parentRelations, temporalContext, forgetAfter, forgetReason }

/-- The formats of the worker over a library of JSON texts, which words the refusal of a text by itself. -/
def formatsOf (json : JsonText) (refusal : String → String) (describe : Storage.StorageError → String) : Formats where
  toString candidates := json.write (candidatesValue candidates)
  fromStr text :=
    match json.read text with
    | .error message => .error message
    | .ok value => (readVec MemoryCandidate.fromValue value).elim (.error (refusal text)) .ok
  describe

-- ---------------------------------------------------------------------------
-- Reading what was written
-- ---------------------------------------------------------------------------

section RoundTrip

variable {α : Type}

theorem readVec_map {read : Value → Option α} {toValue : α → Value} (h : ∀ a, read (toValue a) = some a) (items : List α) :
    readVec read (.array (items.map toValue)) = some items := by
  rw [readVec]
  induction items with
  | nil => rfl
  | cons a rest ih => simp [h a, ih]

theorem readOption_optionalValue {read : Value → Option α} {toValue : α → Value} (h : ∀ a, read (toValue a) = some a)
    (hnull : ∀ a, toValue a ≠ .null) (value : Option α) : readOption read (some (optionalValue toValue value)) = some value := by
  cases value with
  | none => rfl
  | some a =>
    have hread : readOption read (some (toValue a)) = (read (toValue a)).map some := by
      cases hvalue : toValue a with
      | null => exact absurd hvalue (hnull a)
      | _ => rfl
    exact hread.trans (by rw [h a, Option.map_some])

theorem asStr_string (text : String) : Value.asStr (.string text) = some text := rfl

theorem deserializeEventDates_optionalValue (dates : Option (List String)) :
    deserializeEventDates (optionalValue stringsValue dates) = dates := by
  cases dates with
  | none => rfl
  | some dates =>
    have hdates : (dates.map Value.string).filterMap Value.asStr = dates := by
      rw [List.filterMap_map]
      exact List.filterMap_some
    exact congrArg some hdates

/-- An object with the fields of a structure is read by the names of its fields. -/
theorem readStruct_object {names : List String} {required : Nat} {denyUnknownFields : Bool} {fields : Object}
    (h : fields.map (·.1) = names) (hnodup : names.Nodup) :
    readStruct names required denyUnknownFields (.object fields) = some (Object.get fields) := by
  rw [readStruct]
  apply if_pos
  constructor
  · rw [h]
    exact hnodup.filter _
  · exact fun _ field hfield => h ▸ List.mem_map_of_mem hfield

theorem TemporalContext.fromValue_toValue (temporal : TemporalContext) : fromValue temporal.toValue = some temporal := by
  have hdate : readOption Value.asStr (some (optionalValue .string temporal.documentDate)) = some temporal.documentDate :=
    readOption_optionalValue asStr_string nofun temporal.documentDate
  rw [fromValue, toValue, readStruct_object]
  · simp [Object.get_cons, hdate, deserializeEventDates_optionalValue]
  · rfl
  · decide

theorem RelationKind.fromValue_asStr (kind : RelationKind) : fromValue (.string kind.asStr) = some kind := by
  cases kind <;> rfl

theorem ParentRelation.fromValue_toValue (parent : ParentRelation) : fromValue parent.toValue = some parent := by
  rw [fromValue, toValue, readStruct_object]
  · simp [Object.get_cons, RelationKind.fromValue_asStr, asStr_string]
  · rfl
  · decide

theorem MemoryCandidate.fromValue_toValue (candidate : MemoryCandidate) : fromValue candidate.toValue = some candidate := by
  have hbuckets : readVec Value.asStr (stringsValue candidate.buckets) = some candidate.buckets :=
    readVec_map asStr_string candidate.buckets
  have hparents : readVec ParentRelation.fromValue (.array (candidate.parentRelations.map ParentRelation.toValue)) =
      some candidate.parentRelations := readVec_map ParentRelation.fromValue_toValue candidate.parentRelations
  have htemporal : readOption TemporalContext.fromValue
      (some (optionalValue TemporalContext.toValue candidate.temporalContext)) = some candidate.temporalContext :=
    readOption_optionalValue TemporalContext.fromValue_toValue nofun candidate.temporalContext
  have htext (text : Option String) : readOption Value.asStr (some (optionalValue .string text)) = some text :=
    readOption_optionalValue asStr_string nofun text
  rw [fromValue, toValue, readStruct_object]
  · simp [Object.get_cons, asStr_string, asBool, readDefault, hbuckets, hparents, htemporal, htext]
  · rfl
  · decide

end RoundTrip

/-! ## Nesting -/

section Nesting

variable {n : Nat}

theorem shallow_string (text : String) : (Value.string text).Shallow n := by cases n <;> trivial

theorem shallow_optional {α : Type} {toValue : α → Value} (h : ∀ a, (toValue a).Shallow n) (value : Option α) :
    (optionalValue toValue value).Shallow n := by
  cases value with
  | none => cases n <;> trivial
  | some a => exact h a

theorem shallow_array {α : Type} {toValue : α → Value} (h : ∀ a, (toValue a).Shallow n) (items : List α) :
    (Value.array (items.map toValue)).Shallow (n + 1) := by
  intro item hitem
  obtain ⟨a, _, rfl⟩ := List.mem_map.mp hitem
  exact h a

theorem ParentRelation.shallow (parent : ParentRelation) : parent.toValue.Shallow (n + 1) := by
  simp only [toValue, Value.Shallow, List.forall_mem_cons]
  exact ⟨trivial, trivial, nofun⟩

theorem TemporalContext.shallow (temporal : TemporalContext) : temporal.toValue.Shallow (n + 2) := by
  simp only [toValue, Value.Shallow, List.forall_mem_cons]
  exact ⟨shallow_optional shallow_string _, shallow_optional (fun dates => shallow_array shallow_string dates) _, nofun⟩

theorem MemoryCandidate.shallow (candidate : MemoryCandidate) : candidate.toValue.Shallow (n + 3) := by
  simp only [toValue, Value.Shallow, List.forall_mem_cons]
  exact ⟨trivial, trivial, trivial, trivial, shallow_array shallow_string _, shallow_array ParentRelation.shallow _,
    shallow_optional TemporalContext.shallow _, shallow_optional shallow_string _, shallow_optional shallow_string _, nofun⟩

/-- The candidates of a response are nested four deep. -/
theorem candidatesValue_shallow (candidates : List MemoryCandidate) : (candidatesValue candidates).Shallow nestingLimit := by
  have hlist : (candidatesValue candidates).Shallow (123 + 3 + 1) := shallow_array MemoryCandidate.shallow candidates
  exact hlist

end Nesting

/-! ## The cache -/

section Cache

variable {json : JsonText} {refusal : String → String} {describe : Storage.StorageError → String}

/-- What is cached of an extraction is read as it was. -/
theorem fromStr_toString (candidates : List MemoryCandidate) :
    (formatsOf json refusal describe).fromStr ((formatsOf json refusal describe).toString candidates) = .ok candidates := by
  have hread : json.read (json.write (candidatesValue candidates)) = .ok (candidatesValue candidates) :=
    json.read_write _ (candidatesValue_shallow candidates)
  have hcandidates : readVec MemoryCandidate.fromValue (candidatesValue candidates) = some candidates :=
    readVec_map MemoryCandidate.fromValue_toValue candidates
  simp only [formatsOf, hread, hcandidates, Option.elim_some]

/-- A later attempt goes on with the candidates of the attempt that cached them. -/
theorem begun_cached {env : Storage.Env} {job : Storage.ClaimedMemoryJob} {candidates : List MemoryCandidate}
    (h : job.extractionResult = some ((formatsOf json refusal describe).toString candidates)) :
    Stage.begun (formatsOf json refusal describe) job = (.extracted candidates : Stage env) := by
  unfold Stage.begun
  rw [h]
  simp only [fromStr_toString]

end Cache

end Server
