import QueryPlan.Explain.Node
import QueryPlan.Plan.Output
/-!
# QueryPlan.Binding

**From positions to columns.** A plan document refers to columns by position in the outputs of
a node's inputs, taken together. Binding puts references to columns in place of the
positions. Filters, projections and table functions bind against the output of their single
input, joins against their own output.

A report of a failure shows the node with everything bound that stands before the position
that could not be.
-/

namespace QueryPlan

/-- Binds the expressions of an operator, left to right, up to the first position that the
output does not have. -/
def Operator.bindM (output : List ColumnRef) : Operator → StateM (Option Nat) Operator
  | .filter f => do return .filter { f with condition := ← f.condition.bindM output }
  | .join j => do return .join { j with condition := ← j.condition.bindM output }
  | .project p => do return .project { p with exprs := ← p.exprs.mapM (Expr.bindM output) }
  | .tableFunction t => do
    return .tableFunction { t with args := ← t.args.mapM (Expr.bindM output) }
  | op => return op

namespace Plan

/-- The output against which a node is bound, if it is. -/
def bindingOutput (p : Plan) (id : NodeId) : Result (Option (List ColumnRef)) :=
  match p.op id with
  | .filter _ | .project _ | .tableFunction _ => do
    return some (← p.output (← (p.node id).singleInput))
  | .join _ => do return some (← p.output id)
  | _ => .ok none

/-- Binds one node. -/
def bindNode (p : Plan) (id : NodeId) : Result Plan :=
  let failure (p : Plan) (e : Error) : Result Plan := do
    .error (e.within ("Failed to bind " ++ (← (p.node id).text)))
  match p.bindingOutput id with
  | .error e => failure p e
  | .ok none => .ok p
  | .ok (some output) =>
    match ((p.op id).bindM output).run none with
    | (op, none) => .ok (p.setOp id op)
    | (op, some i) => failure (p.setOp id op) (.of (.unboundPosition i output.length))

/-- Binds every live node, in order. -/
def bind (p : Plan) : Result Plan := p.order.foldlM bindNode p

end Plan

end QueryPlan
