-- SUMMARY: Filters on metadata: boolean trees of comparisons with one metadata field.
import Supermemory.Storage.Schema

/-!
# Metadata filters

A filter is evaluated on one metadata object. A comparison with a field that is absent, or
of another type than the comparison is about, does not match, and its negation does.
-/

namespace Storage

/-- Comparison behavior for a metadata condition. -/
inductive FilterKind where
  | metadata | numeric | arrayContains | stringContains
  deriving DecidableEq

/-- Numeric comparison operator. -/
inductive NumericOperator where
  | greater | less | greaterOrEqual | lessOrEqual | equal
  deriving DecidableEq

/-- One metadata comparison in a search filter. -/
structure FilterCondition where
  key : String
  value : String
  kind : FilterKind
  numericOperator : NumericOperator
  negate : Bool
  ignoreCase : Bool
  deriving DecidableEq

/-- Boolean metadata filter tree used by V3 and V4 search. -/
inductive FilterExpression where
  | and (filters : List FilterExpression)
  | or (filters : List FilterExpression)
  | condition (condition : FilterCondition)

/-- The floating point numbers that filters compare. -/
structure Numbers (ν : Type) where
  /-- `Number::as_f64`, of the text of a JSON number. -/
  asF64 : String → Option ν
  /-- `str::parse::<f64>`. -/
  parse : String → Option ν
  lt : ν → ν → Bool
  le : ν → ν → Bool
  totalEq : ν → ν → Bool

variable {ν : Type}

def comparableText : Value → Option String
  | .string value => some value
  | .number value => some value
  | .bool value => some (if value then "true" else "false")
  | _ => none

def equalText (env : Env) (actual wanted : String) (ignoreCase : Bool) : Bool :=
  if ignoreCase then env.toLowercase actual.toList = env.toLowercase wanted.toList else actual = wanted

def containsText (env : Env) (actual wanted : String) (ignoreCase : Bool) : Bool :=
  if ignoreCase then Text.contains (env.toLowercase actual.toList) (env.toLowercase wanted.toList)
  else Text.contains actual.toList wanted.toList

def NumericOperator.compare (numbers : Numbers ν) (operator : NumericOperator) (actual wanted : ν) : Bool :=
  match operator with
  | greater => numbers.lt wanted actual
  | less => numbers.lt actual wanted
  | greaterOrEqual => numbers.le wanted actual
  | lessOrEqual => numbers.le actual wanted
  | equal => numbers.totalEq actual wanted

def matchesCondition (env : Env) (numbers : Numbers ν) (condition : FilterCondition) (value : Value) : Bool :=
  match condition.kind, value with
  | .metadata, value =>
    (comparableText value).any fun actual => equalText env actual condition.value condition.ignoreCase
  | .stringContains, value =>
    (comparableText value).any fun actual => containsText env actual condition.value condition.ignoreCase
  | .arrayContains, .array values =>
    values.any fun value =>
      (comparableText value).any fun actual => equalText env actual condition.value condition.ignoreCase
  | .numeric, .number text =>
    (numbers.asF64 text).any fun actual =>
      (numbers.parse condition.value).any fun wanted => condition.numericOperator.compare numbers actual wanted
  | _, _ => false

mutual

def matchesFilter (env : Env) (numbers : Numbers ν) (metadata : Object) : FilterExpression → Bool
  | .and filters => matchesAll env numbers metadata filters
  | .or filters => matchesAny env numbers metadata filters
  | .condition condition =>
    (metadata.get condition.key).any (matchesCondition env numbers condition) != condition.negate

def matchesAll (env : Env) (numbers : Numbers ν) (metadata : Object) : List FilterExpression → Bool
  | [] => true
  | filter :: rest => matchesFilter env numbers metadata filter && matchesAll env numbers metadata rest

def matchesAny (env : Env) (numbers : Numbers ν) (metadata : Object) : List FilterExpression → Bool
  | [] => false
  | filter :: rest => matchesFilter env numbers metadata filter || matchesAny env numbers metadata rest

end

end Storage
