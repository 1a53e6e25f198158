import QueryPlan.Aggregate
import QueryPlan.Collation
import QueryPlan.Document.Field
import QueryPlan.Expr.Literal
/-!
# QueryPlan.Document.Scalar

**Types, constants, sort keys and aggregates in a plan document.** Of a literal the type
decides which JSON values are accepted: exact numbers, dates, times and intervals are whole
numbers, and floating point numbers may be written as whole numbers too.
-/

namespace QueryPlan

/-- A type: its name, nullability and possibly precision and scale. -/
def SqlType.ofDocument (j : Json) : Result SqlType := do
  let kind ← SqlKind.ofName (← (← j.field "type").asText)
  let nullable ← (← j.field "nullable").asBool
  let precision ← j.int32Field "precision"
  let scale ← j.int32Field "scale"
  return ⟨kind, nullable, precision, scale⟩

/-- A column: a type with a name. -/
def ColumnInfo.ofDocument (j : Json) : Result ColumnInfo := do
  let type ← SqlType.ofDocument j
  let name ← (← j.field "name").asText
  return ⟨name, type⟩

/-- The payload of a literal of a kind. -/
def LiteralValue.ofDocument (kind : SqlKind) (j : Json) : Result LiteralValue :=
  match kind with
  | .decimal | .numeric | .intervalDayTime | .intervalYearMonth | .time | .timestamp | .date
  | .tinyInt | .smallInt | .int | .bigInt => do return .int (← j.asInt)
  | .double | .float =>
    Result.ofOption (.notANumber kind.name j.excerpt) (j.toBinary64?.map .float)
  | .char | .varchar | .text => do return .text (← j.asText)
  | .boolean => do return .bool (← j.asBool)
  | _ => .fail (.literalOfType kind.name)

/-- A literal. A payload of `null` and the type of nulls both make it null. -/
def Literal.ofDocument (j : Json) : Result Literal := do
  let payload ← j.field "literal"
  let kind ← SqlKind.ofName (← (← j.field "type").asText)
  let targetKind ← SqlKind.ofName (← (← j.field "target_type").asText)
  if payload.isNull || kind == .null then return .null targetKind
  else
    let value ← LiteralValue.ofDocument kind payload
    let scale ← j.int32Field "scale"
    let precision ← j.int32Field "precision"
    let typeScale ← j.int32Field "type_scale"
    let typePrecision ← j.int32Field "type_precision"
    return ⟨value, kind, targetKind, scale, precision, typeScale, typePrecision⟩

/-- A whole number that is written as a literal and may be left out. -/
def Json.countField (name : String) (j : Json) : Result (Option Int) :=
  match j.get? name with
  | none => .ok none
  | some value => do
    let l ← Literal.ofDocument value
    Result.ensure (l.kind == .decimal && l.typeScale == 0) (.scaledInteger name)
    return some (← Result.required "integer literal value" l.toInt?)

/-- The direction and the place of nulls for a key that sorts by a column. -/
def SortKey.ofDocument (column : Nat) (j : Json) : Result SortKey := do
  let direction ← (← j.field "direction").asText
  let nulls ← (← j.field "nulls").asText
  return ⟨column, .ofName direction, .ofName nulls⟩

/-- An aggregate call. Only some functions take a second operand. -/
def AggregateCall.ofDocument (j : Json) : Result AggregateCall := do
  let kind ← AggregateKind.ofName (← (← j.field "agg").asText)
  let distinct ← (← j.field "distinct").asBool
  let type ← SqlType.ofDocument (← j.field "type")
  let operands ← (← j.field "operands").asNats
  let admitted := operands.length ≤ 1 || (operands.length == 2 && kind.takesTwo)
  Result.ensure admitted .manyAggregateOperands
  return ⟨kind, distinct, type, operands⟩

end QueryPlan
