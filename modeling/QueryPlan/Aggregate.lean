import QueryPlan.Error
import QueryPlan.SqlType
/-!
# QueryPlan.Aggregate

**Calls of aggregate functions.** The operands are columns of the rows that are grouped.
-/

namespace QueryPlan

/-- An aggregate function. -/
inductive AggregateKind
  | avg
  | min
  | max
  | sum
  | count
  | approxCountDistinct
  | approxQuantile
  | sample
  | singleValue
  deriving DecidableEq, Repr, Inhabited

namespace AggregateKind

/-- The aggregate function with a name; some have two. -/
def ofName : String → Result AggregateKind
  | "AVG" => .ok avg
  | "MIN" => .ok min
  | "MAX" => .ok max
  | "SUM" | "$SUM0" => .ok sum
  | "COUNT" => .ok count
  | "APPROX_COUNT_DISTINCT" => .ok approxCountDistinct
  | "APPROX_PERCENTILE" | "APPROX_QUANTILE" => .ok approxQuantile
  | "SAMPLE" | "LAST_SAMPLE" => .ok sample
  | "SINGLE_VALUE" => .ok singleValue
  | name => .fail (.unknownAggregate name)

/-- The name of an aggregate function. -/
def name : AggregateKind → String
  | avg => "AVG"
  | min => "MIN"
  | max => "MAX"
  | sum => "SUM"
  | count => "COUNT"
  | approxCountDistinct => "APPROX_COUNT_DISTINCT"
  | approxQuantile => "APPROX_QUANTILE"
  | sample => "SAMPLE"
  | singleValue => "SINGLE_VALUE"

/-- Whether a second, constant operand is allowed. -/
def takesTwo : AggregateKind → Bool
  | approxCountDistinct | approxQuantile => true
  | _ => false

/-- Every aggregate function is found under its own name. -/
theorem ofName_name (k : AggregateKind) : ofName k.name = .ok k := by
  cases k <;> rfl

end AggregateKind

/-- A call of an aggregate function. -/
structure AggregateCall where
  kind : AggregateKind
  distinct : Bool
  type : SqlType
  operands : List Nat
  deriving DecidableEq, Repr, Inhabited

namespace AggregateCall

/-- Written `SUM(DISTINCT #1)`. -/
def text (a : AggregateCall) : String :=
  let operands := a.operands.map fun c => s!"#{c}"
  a.kind.name ++ "(" ++ (if a.distinct then "DISTINCT " else "") ++ ", ".intercalate operands ++
    ")"

/-- The call with its operands moved to other columns. -/
def mapOperandsM {m : Type → Type} [Monad m] (f : Nat → m Nat) (a : AggregateCall) :
    m AggregateCall := do
  return { a with operands := ← a.operands.mapM f }

end AggregateCall

end QueryPlan
