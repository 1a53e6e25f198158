import QueryPlan.Plan.Basic
/-!
# QueryPlan.Pass.NopAggregates

**Groupings that are grouped already.** An aggregate without calls over another one without
calls and with as many keys has nothing to do. It is marked and stays in the plan.
-/

namespace QueryPlan

namespace Plan

/-- Whether a node is a grouping without calls by a number of keys. -/
def isGrouping (p : Plan) (keys : Nat) (id : NodeId) : Bool :=
  match p.op id with
  | .aggregate a => a.calls.isEmpty && a.groupCount == keys
  | _ => false

/-- Marks a node if it regroups a grouping. -/
def markNop (p : Plan) (id : NodeId) : Result Plan :=
  match p.op id with
  | .aggregate a =>
    if a.calls.isEmpty then do
      let input ← (p.node id).singleInput
      if p.isGrouping a.groupCount input then
        return p.setOp id (.aggregate { a with isNop := true })
      else return p
    else .ok p
  | _ => .ok p

/-- Marks every live grouping that regroups a grouping. -/
def markNops (p : Plan) : Result Plan := p.order.foldlM markNop p

end Plan

end QueryPlan
