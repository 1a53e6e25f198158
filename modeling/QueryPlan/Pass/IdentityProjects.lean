import QueryPlan.Plan.Redirect
/-!
# QueryPlan.Pass.IdentityProjects

**Projections that only forward their input.** Such a projection is taken out and its
consumers read its input. It stays if it gives a column another name, if it is the root, or if
it marks the rows of an update or delete. One that puts the columns into another order also
stays under consumers that depend on the order: nodes that pass all columns on, and groupings.
-/

namespace QueryPlan

namespace Plan

/-- Whether a consumer of a node passes its columns on as they are or groups by the leading
ones. -/
def hasPassThroughConsumer (p : Plan) (id : NodeId) : Bool :=
  (p.consumers id).any fun c =>
    match p.op c with
    | .filter _ | .sort _ | .union _ | .modify _ => true
    | .aggregate a => 0 < a.groupCount
    | _ => false

/-- For each column of a projection the column of the input that it forwards. -/
def forwardMap (j : Project) : ColumnMap :=
  j.exprs.zipIdx.filterMap fun
    | (.column c, i) => some (i, c.index)
    | _ => none

/-- Whether a projection is to be taken out. -/
def isIdenticalCopy (p : Plan) (id : NodeId) (j : Project) : Result Bool := do
  if j.target.isSome then return false
  else if !(← p.isIdentity id) then return false
  else if ← p.isRenaming id then return false
  else
    let permutes := (forwardMap j).any fun (i, k) => i != k
    return !(permutes && p.hasPassThroughConsumer id)

/-- Takes a node out if it is a projection that only forwards its input. -/
def eliminateCopy (root : Option NodeId) (p : Plan) (id : NodeId) : Result Plan :=
  match p.op id with
  | .project j =>
    if root = some id then .ok p
    else do
      if ← p.isIdenticalCopy id j then p.bypass id (some (forwardMap j)) else return p
  | _ => .ok p

/-- Takes out projections that only forward their input. -/
def eliminateCopies (p : Plan) : Result Plan := p.order.foldlM (eliminateCopy p.root?) p

end Plan

end QueryPlan
