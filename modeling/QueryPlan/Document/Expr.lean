import QueryPlan.Document.Build
import QueryPlan.Document.Scalar
/-!
# QueryPlan.Document.Expr

**Expressions in a plan document.** An expression is an object, and the first of the members
`input`, `literal` and `op` that it has tells what kind of expression it is.

Subqueries stand inside of expressions, so the reader is given what builds a plan from a nested
document. It goes down one level of nesting per call, so the depth of the document bounds
its recursion.
-/

namespace QueryPlan

namespace Expr

/-- Builds the plan of a subquery. -/
abbrev PlanBuilder := Json → Build Subquery

/-- The subquery of an expression. Its operands are required to be a list and mean nothing. -/
def subqueryOfDocument (build : PlanBuilder) (j : Json) : Build Expr := do
  let _ ← (← j.field "operands").asList
  let nested ← j.field "subquery"
  let type ← match j.get? "type" with
    | none | some .null => pure none
    | some type => do pure (some (← SqlType.ofDocument type))
  return .leaf (.subquery (← build nested) type)

/-- The head of an application that is no window function. Quantified comparisons are
functions. -/
def headOf (name : String) (type : SqlType) : Head :=
  match ScalarOp.ofName? name with
  | some op => .operator op type
  | none => .function name type

/-- One end of a frame, and its offset if it has one. -/
def boundOfDocument (read : Json → Build Expr) (j : Json) : Build (FrameBound × List Expr) := do
  let offset ← match ← j.field "offset" with
    | .null => pure []
    | e => do pure [← read e]
  let unbounded ← (← j.field "unbounded").asBool
  let preceding ← (← j.field "preceding").asBool
  let following ← (← j.field "following").asBool
  let currentRow ← (← j.field "is_current_row").asBool
  let orderKey ← (← j.field "order_key").asInt
  return (⟨unbounded, preceding, following, currentRow, !offset.isEmpty, orderKey⟩, offset)

/-- An order key of a window function and how it sorts. -/
def orderKeyOfDocument (read : Json → Build Expr) (j : Json) (place : Nat) :
    Build (Expr × SortKey) := do
  let key ← read (← j.field "field")
  return (key, ← SortKey.ofDocument place j)

/-- A window function with its operands. Its type admits null whatever the document says. -/
def windowOfDocument (read : Json → Build Expr) (name : String) (operands : List Expr)
    (type : SqlType) (j : Json) : Build Expr := do
  let kind ← WindowKind.ofName name
  let partition ← (← (← j.field "partition_keys").asList).mapM read
  let order ← (← (← j.field "order_keys").asList).zipIdx.mapM fun (key, place) =>
    orderKeyOfDocument read key place
  let (lower, lowerOffset) ← boundOfDocument read (← j.field "lower_bound")
  let (upper, upperOffset) ← boundOfDocument read (← j.field "upper_bound")
  let rows ← (← j.field "is_rows").asBool
  let call : WindowCall :=
    { kind := kind
      operandCount := operands.length
      partitionCount := partition.length
      collation := order.map Prod.snd
      lower := lower
      upper := upper
      rows := rows
      type := { type with nullable := true } }
  return .app (.window call)
    (operands ++ partition ++ order.map Prod.fst ++ lowerOffset ++ upperOffset)

/-- An application of an operator, a function or a window function. -/
def applicationOfDocument (build : PlanBuilder) (read : Json → Build Expr) (name : String)
    (j : Json) : Build Expr := do
  let operands ← (← (← j.field "operands").asList).mapM read
  let type ← SqlType.ofDocument (← j.field "type")
  let operands ←
    if name == ScalarOp.isIn.name && j.has "subquery" then
      pure (operands ++ [← subqueryOfDocument build j])
    else pure operands
  if j.has "partition_keys" then windowOfDocument read name operands type j
  else return .app (headOf name type) operands

/-- A `CASE` with at least one condition and its result. -/
def caseOfDocument (read : Json → Build Expr) (j : Json) : Build Expr := do
  let operands ← (← j.field "operands").asList
  Result.ensure (2 ≤ operands.length) (.shortCase operands.length)
  return .app .case (← operands.mapM read)

/-- An expression of at most so many levels. -/
def ofDocumentWithin (build : PlanBuilder) : Nat → Json → Build Expr
  | 0, j => Result.fail (.notAnExpression j.excerpt)
  | fuel + 1, j => do
    if !j.isObject then Result.fail (.notAnExpression j.excerpt)
    else if j.has "input" then return .positional (← (← j.field "input").asNat)
    else if j.has "literal" then return .literal (← Literal.ofDocument j)
    else if j.has "op" then
      match ← (← j.field "op").asText with
      | "CASE" => caseOfDocument (ofDocumentWithin build fuel) j
      | "$SCALAR_QUERY" => subqueryOfDocument build j
      | name => applicationOfDocument build (ofDocumentWithin build fuel) name j
    else Result.fail (.unknownExpression j.excerpt)

/-- The expression in a document. -/
def ofDocument (build : PlanBuilder) (j : Json) : Build Expr :=
  ofDocumentWithin build (j.depth + 1) j

end Expr

end QueryPlan
