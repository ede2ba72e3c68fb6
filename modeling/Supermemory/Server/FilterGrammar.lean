-- SUMMARY: The grammar of search filters: what the parser accepts of it, and what a parsed filter means.
import Supermemory.Library.Loop
import Supermemory.Server.SearchFilters

/-!
# The grammar of filters

The parser walks a filter with one counter of conditions and a bound on nesting. The grammar
that it reads is stated here on its own, without counter and bound, and so is the condition
on metadata that a value of this grammar denotes.
-/

namespace Server

open Storage

variable {ν : Type}

-- ---------------------------------------------------------------------------
-- The grammar
-- ---------------------------------------------------------------------------

/-- A boolean field: absent for false, a boolean, or the text of one. -/
inductive BooleanLike : Option Value → Bool → Prop
  | absent : BooleanLike none false
  | bool (value : Bool) : BooleanLike (some (.bool value)) value
  | true : BooleanLike (some (.string "true")) true
  | false : BooleanLike (some (.string "false")) false

def kindName : FilterKind → String
  | .metadata => "metadata"
  | .numeric => "numeric"
  | .arrayContains => "array_contains"
  | .stringContains => "string_contains"

def operatorName : NumericOperator → String
  | .greater => ">"
  | .less => "<"
  | .greaterOrEqual => ">="
  | .lessOrEqual => "<="
  | .equal => "="

/-- The object is a condition. -/
structure ConditionIn (numbers : Numbers ν) (object : Object) (condition : FilterCondition) : Prop where
  key : object.get "key" = some (.string condition.key)
  value : object.get "value" = some (.string condition.value)
  kind : (metadataString object "filterType").getD "metadata" = kindName condition.kind
  number : condition.kind = .numeric → Text.trim condition.value.toList ≠ [] ∧ (numbers.parse condition.value).isSome = true
  numericOperator : (metadataString object "numericOperator").getD "=" = operatorName condition.numericOperator
  negate : BooleanLike (object.get "negate") condition.negate
  ignoreCase : BooleanLike (object.get "ignoreCase") condition.ignoreCase

mutual

/-- The value is the filter, read as the parser reads it: `AND` before `OR`, and either before a condition. -/
def Reads (numbers : Numbers ν) : FilterExpression → Value → Prop
  | .and filters, value => ∃ (object : Object) (items : List Value), value = .object object ∧
      object.get "AND" = some (.array items) ∧ ReadsEach numbers filters items
  | .or filters, value => ∃ (object : Object) (items : List Value), value = .object object ∧
      object.get "AND" = none ∧ object.get "OR" = some (.array items) ∧ ReadsEach numbers filters items
  | .condition condition, value => ∃ object : Object, value = .object object ∧
      object.get "AND" = none ∧ object.get "OR" = none ∧ ConditionIn numbers object condition

def ReadsEach (numbers : Numbers ν) : List FilterExpression → List Value → Prop
  | [], items => items = []
  | filter :: rest, items => ∃ item others, items = item :: others ∧ Reads numbers filter item ∧
      ReadsEach numbers rest others

end

-- ---------------------------------------------------------------------------
-- Limits
-- ---------------------------------------------------------------------------

mutual

/-- How many filters the innermost part of a filter is nested in. -/
def nesting : FilterExpression → Nat
  | .and filters => nestingEach filters
  | .or filters => nestingEach filters
  | .condition _ => 0

def nestingEach : List FilterExpression → Nat
  | [] => 0
  | filter :: rest => max (nesting filter + 1) (nestingEach rest)

end

mutual

def conditionCount : FilterExpression → Nat
  | .and filters => conditionCountEach filters
  | .or filters => conditionCountEach filters
  | .condition _ => 1

def conditionCountEach : List FilterExpression → Nat
  | [] => 0
  | filter :: rest => conditionCount filter + conditionCountEach rest

end

mutual

/-- What the counter of the parser counts: every condition, and every filter inside of another one. -/
def tally : FilterExpression → Nat
  | .and filters => tallyEach filters
  | .or filters => tallyEach filters
  | .condition _ => 1

def tallyEach : List FilterExpression → Nat
  | [] => 0
  | filter :: rest => 1 + tally filter + tallyEach rest

end

mutual

theorem conditionCount_le_tally : ∀ filter : FilterExpression, conditionCount filter ≤ tally filter
  | .and filters => conditionCountEach_le_tallyEach filters
  | .or filters => conditionCountEach_le_tallyEach filters
  | .condition _ => Nat.le_refl 1

theorem conditionCountEach_le_tallyEach :
    ∀ filters : List FilterExpression, conditionCountEach filters ≤ tallyEach filters
  | [] => Nat.le_refl 0
  | filter :: rest => by
    have hfirst := conditionCount_le_tally filter
    have hrest := conditionCountEach_le_tallyEach rest
    rw [conditionCountEach, tallyEach]
    omega

end

-- ---------------------------------------------------------------------------
-- What the parser accepts
-- ---------------------------------------------------------------------------

theorem filterText_ok {object : Object} {key message text : String} :
    filterText object key message = .ok text ↔ object.get key = some (.string text) := by
  unfold filterText metadataString
  rcases object.get key with _ | (_ | _ | _ | _ | _ | _)
  all_goals simp [Value.asStr]

theorem ensure_ok {ε : Type} {condition : Prop} [Decidable condition] {error : ε} :
    ensure condition error = .ok () ↔ condition := by
  unfold ensure
  split
  case isTrue h => exact iff_of_true rfl h
  case isFalse h => exact iff_of_false (fun hok => by cases hok) h

theorem filterKind_ok {text : String} {kind : FilterKind} : filterKind text = .ok kind ↔ text = kindName kind := by
  unfold filterKind
  split
  case h_5 hmetadata hnumeric harray hstring =>
    refine iff_of_false (fun h => by cases h) fun hname => ?_
    cases kind
    case metadata => exact hmetadata hname
    case numeric => exact hnumeric hname
    case arrayContains => exact harray hname
    case stringContains => exact hstring hname
  all_goals
    cases kind
    all_goals simp [kindName]

theorem numericOperator_ok {text : String} {operator : NumericOperator} :
    numericOperator text = .ok operator ↔ text = operatorName operator := by
  unfold numericOperator
  split
  case h_6 hgreater hless hgreaterOrEqual hlessOrEqual hequal =>
    refine iff_of_false (fun h => by cases h) fun hname => ?_
    cases operator
    case greater => exact hgreater hname
    case less => exact hless hname
    case greaterOrEqual => exact hgreaterOrEqual hname
    case lessOrEqual => exact hlessOrEqual hname
    case equal => exact hequal hname
  all_goals
    cases operator
    all_goals simp [operatorName]

theorem booleanField_ok {field : Option Value} {value : Bool} :
    booleanField field = .ok value ↔ BooleanLike field value := by
  unfold booleanField
  constructor
  · intro h
    split at h
    · cases h
      exact .absent
    · cases h
      exact .bool _
    · cases h
      exact .true
    · cases h
      exact .false
    · cases h
  · rintro (_ | _ | _ | _)
    all_goals rfl

theorem parseCondition_ok {numbers : Numbers ν} {object : Object} {condition : FilterCondition} :
    parseCondition numbers object = .ok condition ↔ ConditionIn numbers object condition := by
  unfold parseCondition
  constructor
  · intro h
    obtain ⟨key, hkey, h⟩ := Loop.bind_ok.mp h
    obtain ⟨value, hvalue, h⟩ := Loop.bind_ok.mp h
    obtain ⟨kind, hkind, h⟩ := Loop.bind_ok.mp h
    obtain ⟨_, hnumber, h⟩ := Loop.bind_ok.mp h
    obtain ⟨operator, hoperator, h⟩ := Loop.bind_ok.mp h
    obtain ⟨negate, hnegate, h⟩ := Loop.bind_ok.mp h
    obtain ⟨ignoreCase, hignore, h⟩ := Loop.bind_ok.mp h
    cases h
    constructor
    case key => exact filterText_ok.mp hkey
    case value => exact filterText_ok.mp hvalue
    case kind => exact filterKind_ok.mp hkind
    case number => exact ensure_ok.mp hnumber
    case numericOperator => exact numericOperator_ok.mp hoperator
    case negate => exact booleanField_ok.mp hnegate
    case ignoreCase => exact booleanField_ok.mp hignore
  · intro h
    refine Loop.bind_ok.mpr ⟨condition.key, filterText_ok.mpr h.key, ?_⟩
    refine Loop.bind_ok.mpr ⟨condition.value, filterText_ok.mpr h.value, ?_⟩
    refine Loop.bind_ok.mpr ⟨condition.kind, filterKind_ok.mpr h.kind, ?_⟩
    refine Loop.bind_ok.mpr ⟨(), ensure_ok.mpr h.number, ?_⟩
    refine Loop.bind_ok.mpr ⟨condition.numericOperator, numericOperator_ok.mpr h.numericOperator, ?_⟩
    refine Loop.bind_ok.mpr ⟨condition.negate, booleanField_ok.mpr h.negate, ?_⟩
    exact Loop.bind_ok.mpr ⟨condition.ignoreCase, booleanField_ok.mpr h.ignoreCase, rfl⟩

theorem ReadsEach.length_le {numbers : Numbers ν} {filters : List FilterExpression} {items : List Value}
    (h : ReadsEach numbers filters items) : items.length ≤ tallyEach filters := by
  induction filters generalizing items with
  | nil =>
    cases h
    exact Nat.le_refl 0
  | cons filter rest ih =>
    obtain ⟨item, others, rfl, _, hrest⟩ := h
    have hle := ih hrest
    rw [List.length_cons, tallyEach]
    omega

/-- The filters, within the limits, that start the counter at `count` and leave it at `count'`. -/
def Accepts (numbers : Numbers ν) (levels : Nat) (value : Value) (count : Nat) (filter : FilterExpression)
    (count' : Nat) : Prop :=
  Reads numbers filter value ∧ nesting filter < levels ∧ count' = count + tally filter ∧ count' ≤ 200

/-- A list of filters, each counted before by its place in the list. -/
theorem parseEach_ok {numbers : Numbers ν} {levels : Nat}
    {parse : Value → Nat → Except ApiError (FilterExpression × Nat)}
    (hparse : ∀ value count filter count', parse value count = .ok (filter, count') ↔
      Accepts numbers levels value count filter count')
    {items : List Value} {filters : List FilterExpression} {count count' : Nat} (hcount : count ≤ 200) :
    parseEach parse items count = .ok (filters, count') ↔ ReadsEach numbers filters items ∧
      nestingEach filters ≤ levels ∧ count' + items.length = count + tallyEach filters ∧ count' ≤ 200 := by
  induction items generalizing filters count with
  | nil =>
    constructor
    · intro h
      cases h
      exact ⟨rfl, Nat.zero_le _, rfl, hcount⟩
    · rintro ⟨hreads, _, hsum, _⟩
      cases filters with
      | nil =>
        cases hsum
        rfl
      | cons =>
        obtain ⟨_, _, hnil, _⟩ := hreads
        cases hnil
  | cons item rest ih =>
    constructor
    · intro h
      obtain ⟨⟨filter, count₁⟩, hfirst, h⟩ := Loop.bind_ok.mp h
      obtain ⟨⟨filters', count₂⟩, hrest, h⟩ := Loop.bind_ok.mp h
      cases h
      obtain ⟨hreads, hnesting, hsum, hle⟩ := (hparse _ _ _ _).mp hfirst
      obtain ⟨hreads', hnesting', hsum', hle'⟩ := (ih hle).mp hrest
      refine ⟨⟨item, rest, rfl, hreads, hreads'⟩, max_le hnesting hnesting', ?_, hle'⟩
      rw [List.length_cons, tallyEach]
      omega
    · rintro ⟨hreads, hnesting, hsum, hle⟩
      cases filters with
      | nil => cases hreads
      | cons filter filters =>
        obtain ⟨_, _, hitems, hfirst, hrest⟩ := hreads
        cases hitems
        rw [nestingEach] at hnesting
        obtain ⟨hnesting, hnesting'⟩ := max_le_iff.mp hnesting
        have hlength := hrest.length_le
        rw [List.length_cons, tallyEach] at hsum
        have hle₁ : count + tally filter ≤ 200 := by omega
        refine Loop.bind_ok.mpr ⟨(filter, count + tally filter), ?_, ?_⟩
        · exact (hparse _ _ _ _).mpr ⟨hfirst, hnesting, rfl, hle₁⟩
        · refine Loop.bind_ok.mpr ⟨(filters, count'), ?_, rfl⟩
          exact (ih hle₁).mpr ⟨hrest, hnesting', by omega, hle⟩

section Step

variable {numbers : Numbers ν} {levels count count' : Nat} {object : Object} {filter : FilterExpression}

theorem parseFilterAt_leaf (hvalues : (object.get "AND").or (object.get "OR") = none) :
    parseFilterAt numbers (levels + 1) (.object object) count = .ok (filter, count') ↔
      ∃ condition, filter = .condition condition ∧ ConditionIn numbers object condition ∧ count' = count + 1 ∧
        count' ≤ 200 := by
  rw [parseFilterAt, hvalues]
  dsimp only
  constructor
  · intro h
    split at h
    case isTrue => cases h
    case isFalse hlimit =>
      obtain ⟨condition, hcondition, h⟩ := Loop.bind_ok.mp h
      cases h
      exact ⟨condition, rfl, parseCondition_ok.mp hcondition, rfl, by omega⟩
  · rintro ⟨condition, rfl, hcondition, rfl, hle⟩
    rw [if_neg (by omega)]
    exact Loop.bind_ok.mpr ⟨condition, parseCondition_ok.mpr hcondition, rfl⟩

/-- The filters of a group, under the key that the object has. -/
theorem parseFilterAt_group
    (hparse : ∀ value count filter count', parseFilterAt numbers levels value count = .ok (filter, count') ↔
      Accepts numbers levels value count filter count')
    {items : List Value} (hvalues : (object.get "AND").or (object.get "OR") = some (.array items)) :
    parseFilterAt numbers (levels + 1) (.object object) count = .ok (filter, count') ↔ ∃ filters,
      filter = (if (object.get "AND").isSome then .and filters else .or filters) ∧ ReadsEach numbers filters items ∧
        nestingEach filters ≤ levels ∧ count' = count + tallyEach filters ∧ count' ≤ 200 := by
  rw [parseFilterAt, hvalues]
  dsimp only
  constructor
  · intro h
    by_cases hlimit : 200 < items.length ∨ 200 < count + items.length
    · rw [if_pos hlimit] at h
      cases h
    · rw [if_neg hlimit] at h
      obtain ⟨⟨filters, count₁⟩, hnested, h⟩ := Loop.bind_ok.mp h
      cases h
      obtain ⟨hreads, hnesting, hsum, hle⟩ := (parseEach_ok hparse (by omega)).mp hnested
      exact ⟨filters, rfl, hreads, hnesting, by omega, hle⟩
  · rintro ⟨filters, rfl, hreads, hnesting, rfl, hle⟩
    have hlength := hreads.length_le
    rw [if_neg (by omega)]
    refine Loop.bind_ok.mpr ⟨(filters, count + tallyEach filters), ?_, rfl⟩
    exact (parseEach_ok hparse (by omega)).mpr ⟨hreads, hnesting, by omega, hle⟩

end Step

/-- The parser accepts the filters that it reads, as far as nesting and counter go. -/
theorem parseFilterAt_ok {numbers : Numbers ν} {levels : Nat} {value : Value} {count : Nat}
    {filter : FilterExpression} {count' : Nat} :
    parseFilterAt numbers levels value count = .ok (filter, count') ↔
      Accepts numbers levels value count filter count' := by
  induction levels generalizing value count filter count' with
  | zero => exact iff_of_false (fun h => by cases h) fun h => absurd h.2.1 (Nat.not_lt_zero _)
  | succ levels ih =>
    have hgroup {object : Object} {items : List Value} := @parseFilterAt_group _ numbers levels count count' object
      filter (fun _ _ _ _ => ih) items
    constructor
    · intro h
      cases value with
      | object object =>
        cases hvalues : (Object.get object "AND").or (Object.get object "OR") with
        | none =>
          obtain ⟨hand, hor⟩ := Option.or_eq_none_iff.mp hvalues
          obtain ⟨condition, rfl, hcondition, hsum, hle⟩ := (parseFilterAt_leaf hvalues).mp h
          exact ⟨⟨object, rfl, hand, hor, hcondition⟩, Nat.succ_pos _, hsum, hle⟩
        | some values =>
          cases values with
          | array items =>
            obtain ⟨filters, rfl, hreads, hnesting, hsum, hle⟩ := (hgroup hvalues).mp h
            have hnesting := Nat.lt_succ_of_le hnesting
            cases hand : Object.get object "AND" with
            | none =>
              rw [hand, Option.none_or] at hvalues
              exact ⟨⟨object, items, rfl, hand, hvalues, hreads⟩, hnesting, hsum, hle⟩
            | some values =>
              rw [hand, Option.some_or] at hvalues
              cases hvalues
              exact ⟨⟨object, items, rfl, hand, hreads⟩, hnesting, hsum, hle⟩
          | _ =>
            rw [parseFilterAt, hvalues] at h
            cases h
      | _ => cases h
    · rintro ⟨hreads, hnesting, hsum, hle⟩
      cases filter with
      | and filters =>
        obtain ⟨object, items, rfl, hand, hreads⟩ := hreads
        apply (hgroup (by rw [hand]; rfl)).mpr
        exact ⟨filters, by rw [hand]; rfl, hreads, Nat.le_of_lt_succ hnesting, hsum, hle⟩
      | or filters =>
        obtain ⟨object, items, rfl, hand, hor, hreads⟩ := hreads
        apply (hgroup (by rw [hand, hor]; rfl)).mpr
        exact ⟨filters, by rw [hand]; rfl, hreads, Nat.le_of_lt_succ hnesting, hsum, hle⟩
      | condition condition =>
        obtain ⟨object, rfl, hand, hor, hcondition⟩ := hreads
        apply (parseFilterAt_leaf (by rw [hand, hor]; rfl)).mpr
        exact ⟨condition, rfl, hcondition, hsum, hle⟩

/-- The JSON value that a filter parameter holds, itself or as a text. -/
def carried (fromStr : String → Option Value) : Value → Option Value
  | .string text => fromStr text
  | value => some value

theorem parseFilter_eq (numbers : Numbers ν) (fromStr : String → Option Value) (value : Value) :
    parseFilter numbers fromStr value =
      (carried fromStr value).elim (.error (.validation "filters must be valid JSON")) fun parsed =>
        (parseFilterAt numbers 9 parsed 0).map Prod.fst := by
  have hmap (parsed : Value) : (parseFilterAt numbers 9 parsed 0 >>= fun result => .ok result.1) =
      (parseFilterAt numbers 9 parsed 0).map Prod.fst := by
    cases parseFilterAt numbers 9 parsed 0 with
    | error e => rfl
    | ok result => rfl
  unfold parseFilter
  cases value with
  | string text =>
    dsimp only [carried]
    cases fromStr text with
    | none => rfl
    | some parsed => exact hmap parsed
  | null => exact hmap .null
  | bool value => exact hmap (.bool value)
  | number text => exact hmap (.number text)
  | array items => exact hmap (.array items)
  | object fields => exact hmap (.object fields)

/-- What a filter parameter is parsed to. -/
theorem parseFilter_ok {numbers : Numbers ν} {fromStr : String → Option Value} {value : Value}
    {filter : FilterExpression} :
    parseFilter numbers fromStr value = .ok filter ↔ ∃ parsed, carried fromStr value = some parsed ∧
      Reads numbers filter parsed ∧ nesting filter ≤ 8 ∧ tally filter ≤ 200 := by
  rw [parseFilter_eq]
  cases carried fromStr value with
  | none => simp
  | some parsed =>
    rw [Option.elim_some]
    constructor
    · intro h
      cases hfilter : parseFilterAt numbers 9 parsed 0 with
      | error e =>
        rw [hfilter] at h
        cases h
      | ok result =>
        rw [hfilter] at h
        cases h
        obtain ⟨hreads, hnesting, hsum, hle⟩ := parseFilterAt_ok.mp hfilter
        exact ⟨parsed, rfl, hreads, Nat.le_of_lt_succ hnesting, by omega⟩
    · rintro ⟨_, ⟨⟩, hreads, hnesting, hle⟩
      have hfilter : parseFilterAt numbers 9 parsed 0 = .ok (filter, 0 + tally filter) :=
        parseFilterAt_ok.mpr ⟨hreads, Nat.lt_succ_of_le hnesting, rfl, by omega⟩
      rw [hfilter]
      rfl

-- ---------------------------------------------------------------------------
-- What a filter means
-- ---------------------------------------------------------------------------

/-- The comparison of a condition holds of the field that it names. -/
def Compares (env : Env) (numbers : Numbers ν) (condition : FilterCondition) (field : Value) : Prop :=
  match condition.kind with
  | .metadata => ∃ actual ∈ comparableText field, equalText env actual condition.value condition.ignoreCase = true
  | .stringContains =>
    ∃ actual ∈ comparableText field, containsText env actual condition.value condition.ignoreCase = true
  | .arrayContains => ∃ items, field = .array items ∧ ∃ item ∈ items, ∃ actual ∈ comparableText item,
      equalText env actual condition.value condition.ignoreCase = true
  | .numeric => ∃ text, field = .number text ∧ ∃ actual ∈ numbers.asF64 text, ∃ wanted ∈ numbers.parse condition.value,
      condition.numericOperator.compare numbers actual wanted = true

/-- A condition on metadata that a JSON value denotes: all of some, any of some, or a comparison and its negation. -/
inductive Denotes (env : Env) (numbers : Numbers ν) : Value → (Object → Prop) → Prop
  | all {object : Object} {items : List Value} {meanings : List (Object → Prop)}
      (hand : object.get "AND" = some (.array items)) (hitems : List.Forall₂ (Denotes env numbers) items meanings) :
      Denotes env numbers (.object object) fun metadata => ∀ meaning ∈ meanings, meaning metadata
  | any {object : Object} {items : List Value} {meanings : List (Object → Prop)}
      (hand : object.get "AND" = none) (hor : object.get "OR" = some (.array items))
      (hitems : List.Forall₂ (Denotes env numbers) items meanings) :
      Denotes env numbers (.object object) fun metadata => ∃ meaning ∈ meanings, meaning metadata
  | condition {object : Object} {condition : FilterCondition}
      (hand : object.get "AND" = none) (hor : object.get "OR" = none)
      (hcondition : ConditionIn numbers object condition) :
      Denotes env numbers (.object object) fun metadata =>
        (∃ field ∈ metadata.get condition.key, Compares env numbers condition field) ↔ condition.negate = false

theorem matchesCondition_iff {env : Env} {numbers : Numbers ν} {condition : FilterCondition} {field : Value} :
    matchesCondition env numbers condition field = true ↔ Compares env numbers condition field := by
  unfold matchesCondition Compares
  cases condition.kind with
  | metadata => exact Option.any_eq_true _ _
  | stringContains => exact Option.any_eq_true _ _
  | arrayContains =>
    cases field with
    | array items => simp [Option.any_eq_true]
    | _ => simp
  | numeric =>
    cases field with
    | number text => simp [Option.any_eq_true]
    | _ => simp

mutual

/-- A filter matches what the value that it is read from denotes. -/
theorem Reads.denotes (env : Env) {numbers : Numbers ν} : ∀ {filter : FilterExpression} {value : Value},
    Reads numbers filter value → ∃ meaning, Denotes env numbers value meaning ∧
      ∀ metadata, matchesFilter env numbers metadata filter = true ↔ meaning metadata
  | .and filters, _, ⟨object, items, hvalue, hand, hreads⟩ => by
    obtain ⟨meanings, hdenotes, hall, _⟩ := ReadsEach.denotes env hreads
    subst hvalue
    exact ⟨_, .all hand hdenotes, hall⟩
  | .or filters, _, ⟨object, items, hvalue, hand, hor, hreads⟩ => by
    obtain ⟨meanings, hdenotes, _, hany⟩ := ReadsEach.denotes env hreads
    subst hvalue
    exact ⟨_, .any hand hor hdenotes, hany⟩
  | .condition condition, _, ⟨object, hvalue, hand, hor, hcondition⟩ => by
    subst hvalue
    refine ⟨_, .condition hand hor hcondition, fun metadata => ?_⟩
    have hfield : (metadata.get condition.key).any (matchesCondition env numbers condition) = true ↔
        ∃ field ∈ metadata.get condition.key, Compares env numbers condition field := by
      rw [Option.any_eq_true]
      exact exists_congr fun field => and_congr_right fun _ => matchesCondition_iff
    rw [matchesFilter, ← hfield]
    cases (metadata.get condition.key).any (matchesCondition env numbers condition)
    all_goals cases condition.negate
    all_goals decide

theorem ReadsEach.denotes (env : Env) {numbers : Numbers ν} :
    ∀ {filters : List FilterExpression} {items : List Value},
    ReadsEach numbers filters items → ∃ meanings, List.Forall₂ (Denotes env numbers) items meanings ∧
      (∀ metadata, matchesAll env numbers metadata filters = true ↔ ∀ meaning ∈ meanings, meaning metadata) ∧
      ∀ metadata, matchesAny env numbers metadata filters = true ↔ ∃ meaning ∈ meanings, meaning metadata
  | [], _, hnil => by
    cases hnil
    exact ⟨[], .nil, by simp [matchesAll], by simp [matchesAny]⟩
  | filter :: rest, _, ⟨item, others, hitems, hfirst, hrest⟩ => by
    obtain ⟨meaning, hmeaning, hfilter⟩ := Reads.denotes env hfirst
    obtain ⟨meanings, hmeanings, hall, hany⟩ := ReadsEach.denotes env hrest
    subst hitems
    refine ⟨meaning :: meanings, .cons hmeaning hmeanings, fun metadata => ?_, fun metadata => ?_⟩
    · rw [matchesAll, Bool.and_eq_true, hfilter, hall, List.forall_mem_cons]
    · rw [matchesAny, Bool.or_eq_true, hfilter, hany, List.exists_mem_cons_iff]

end

/-- An accepted value is a filter within the limits and is parsed to what it denotes. A filter is accepted if it is
    within the limit of nesting and all of its conditions and nested filters together are at most 200. -/
theorem parseFilter_meaning (env : Env) (numbers : Numbers ν) (fromStr : String → Option Value) (value : Value) :
    (∀ filter, parseFilter numbers fromStr value = .ok filter →
      ∃ parsed meaning, carried fromStr value = some parsed ∧ Reads numbers filter parsed ∧ nesting filter ≤ 8 ∧
        conditionCount filter ≤ 200 ∧ Denotes env numbers parsed meaning ∧
        ∀ metadata, matchesFilter env numbers metadata filter = true ↔ meaning metadata) ∧
    ∀ filter parsed, carried fromStr value = some parsed → Reads numbers filter parsed → nesting filter ≤ 8 →
      tally filter ≤ 200 → parseFilter numbers fromStr value = .ok filter := by
  constructor
  · intro filter h
    obtain ⟨parsed, hparsed, hreads, hnesting, htally⟩ := parseFilter_ok.mp h
    obtain ⟨meaning, hdenotes, hmatches⟩ := Reads.denotes env hreads
    have hcount := (conditionCount_le_tally filter).trans htally
    exact ⟨parsed, meaning, hparsed, hreads, hnesting, hcount, hdenotes, hmatches⟩
  · intro filter parsed hparsed hreads hnesting htally
    exact parseFilter_ok.mpr ⟨parsed, hparsed, hreads, hnesting, htally⟩

/-- The filters that have either `AND` or `OR`, or neither, and name their comparisons in text. -/
inductive IsFilter (numbers : Numbers ν) : Value → Prop
  | and {object : Object} {items : List Value} (hand : object.get "AND" = some (.array items))
      (hor : object.get "OR" = none) (hitems : ∀ item ∈ items, IsFilter numbers item) :
      IsFilter numbers (.object object)
  | or {object : Object} {items : List Value} (hand : object.get "AND" = none)
      (hor : object.get "OR" = some (.array items)) (hitems : ∀ item ∈ items, IsFilter numbers item) :
      IsFilter numbers (.object object)
  | condition {object : Object} {condition : FilterCondition} (hand : object.get "AND" = none)
      (hor : object.get "OR" = none) (hcondition : ConditionIn numbers object condition)
      (hkind : ∀ field ∈ object.get "filterType", ∃ text, field = .string text)
      (hoperator : ∀ field ∈ object.get "numericOperator", ∃ text, field = .string text) :
      IsFilter numbers (.object object)

/-- A filter with both keys. -/
def bothKeys : Value :=
  .object [("AND", .array []), ("OR", .array [.object [("key", .string "topic"), ("value", .string "weather")]])]

/-- A filter with both keys is accepted, and what stands under `OR` does not constrain anything. -/
theorem parseFilter_ignores_or :
    ¬ IsFilter noNumbers bothKeys ∧
      parseFilter noNumbers (fun _ => none) bothKeys = .ok (.and []) := by
  constructor
  · rintro (⟨_, hor, _⟩ | ⟨hand, _, _⟩ | ⟨hand, _, _, _, _⟩)
    · cases hor
    · cases hand
    · cases hand
  · rfl

end Server
