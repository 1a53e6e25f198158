import QueryPlan.Plan.Collation
import QueryPlan.Plan.Redirect
/-!
# QueryPlan.Pass.RedundantSorts

**Sorts that are sorted again.** A plain sort is taken out if its only consumer is a sort in
an equivalent order, or a chain of simple projections that ends in one. The pass looks at
sorts that follow each other in the live order with nothing but simple projections in
between.
-/

namespace QueryPlan

namespace Plan

/-- Whether a node is a projection to columns. -/
def isSimpleProject (p : Plan) (id : NodeId) : Bool :=
  match p.op id with
  | .project j => j.isSimple
  | _ => false

/-- Whether a node is another one or reads it through simple projections, found on a walk of
bounded length. -/
def readsThroughProjects (p : Plan) (target : NodeId) : Nat → NodeId → Result Bool
  | 0, _ => .ok false
  | fuel + 1, id =>
    if id = target then .ok true
    else if p.isSimpleProject id then do
      readsThroughProjects p target fuel (← (p.node id).singleInput)
    else .ok false

/-- Whether an earlier sort makes no difference because of a later one. -/
def isRedundantSort (p : Plan) (earlier later : NodeId) : Result Bool :=
  match p.op earlier with
  | .sort s =>
    if s.isPlain && p.useCount earlier == 1 then do
      let input ← (p.node later).singleInput
      if ← p.readsThroughProjects earlier p.walkBound input then p.sameCollation earlier later
      else return false
    else .ok false
  | _ => .ok false

/-- Looks at one node, given the last sort with only simple projections behind it. -/
def simplifySort (state : Plan × Option NodeId) (id : NodeId) :
    Result (Plan × Option NodeId) :=
  let (p, earlier) := state
  match p.op id with
  | .sort _ =>
    match earlier with
    | none => .ok (p, some id)
    | some e => do
      if ← p.isRedundantSort e id then return (← p.bypass e none, some id)
      else return (p, some id)
  | _ => .ok (p, if p.isSimpleProject id then earlier else none)

/-- Takes out sorts that are sorted again. -/
def simplifySorts (p : Plan) : Result Plan := do
  return (← p.order.foldlM simplifySort (p, none)).1

end Plan

end QueryPlan
