import QueryPlan.Expr.Conjunction
import QueryPlan.Plan.Redirect
/-!
# QueryPlan.Pass.CrossJoins

**Join conditions in a filter over a cross join.** The conjuncts that refer to both inputs of
an inner join with condition `true` move into the join, if only the filter reads it. A filter
without conjuncts is taken out.
-/

namespace QueryPlan

/-- Whether an expression refers to a column of each of two inputs. -/
def Expr.refersToBoth (left right : List ColumnRef) (e : Expr) : Bool :=
  e.columns.any left.contains && e.columns.any right.contains

namespace Plan

/-- The columns of a node under its own handle. -/
def ownColumns (p : Plan) (id : NodeId) : Result (List ColumnRef) := do
  return ColumnRef.range id (← p.width id)

/-- Moves conjuncts out of a filter over a cross join. -/
def hoistCondition (p : Plan) (id : NodeId) : Result Plan :=
  match p.op id with
  | .filter f => do
    let joinId ← (p.node id).singleInput
    match p.op joinId with
    | .join j =>
      if j.kind != .inner || !j.condition.isTrue || p.useCount joinId != 1 then return p
      else
        let left ← p.ownColumns (← (p.node joinId).input 0)
        let right ← p.ownColumns (← (p.node joinId).input 1)
        let (hoisted, remaining) := f.condition.conjuncts.partition (Expr.refersToBoth left right)
        match Expr.all? hoisted with
        | none => return p
        | some condition =>
          let p := p.setOp joinId (.join { j with condition := condition })
          match Expr.all? remaining with
          | some condition => return p.setOp id (.filter ⟨condition⟩)
          | none => p.bypass id none
    | _ => return p
  | _ => .ok p

/-- Moves join conditions out of filters over cross joins. -/
def hoistConditions (p : Plan) : Result Plan := p.order.foldlM hoistCondition p

end Plan

end QueryPlan
