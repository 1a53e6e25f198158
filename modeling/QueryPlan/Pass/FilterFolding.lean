import QueryPlan.Expr.Conjunction
import QueryPlan.Plan.Redirect
/-!
# QueryPlan.Pass.FilterFolding

**Filters over filters.** A filter that is read by one filter only is merged into it. The
merged condition is the conjunction of both, the inner one first.
-/

namespace QueryPlan

/-- The filter with more conjuncts in front of its own. -/
def Filter.prepend (f : Filter) (inner : Expr) : Filter :=
  { f with condition := (Expr.all? (inner.conjuncts ++ f.condition.conjuncts)).getD f.condition }

namespace Plan

/-- Puts a condition in front of that of a filter. -/
def mergeCondition (p : Plan) (id : NodeId) (inner : Expr) : Plan :=
  match p.op id with
  | .filter f => p.setOp id (.filter (f.prepend inner))
  | _ => p

/-- Merges the input of a filter into it, if the input is a filter without other uses. -/
def foldFilter (p : Plan) (id : NodeId) : Result Plan :=
  match p.op id with
  | .filter _ => do
    let inner ← (p.node id).singleInput
    match p.op inner with
    | .filter f =>
      if p.useCount inner != 1 then return p
      else
        let input ← (p.node inner).singleInput
        let p ← p.replaceInput id inner input none
        return (p.mergeCondition id f.condition).remove inner
    | _ => return p
  | _ => .ok p

/-- Merges filters into the filters that read them. -/
def foldFilters (p : Plan) : Result Plan := p.order.foldlM foldFilter p

end Plan

end QueryPlan
