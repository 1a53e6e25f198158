import QueryPlan.Plan.Basic
/-!
# QueryPlan.Plan.Output

**The columns that a node offers.** Most nodes have columns of their own. Filters, sorts,
modifications and unions have those of their first input, under their own handle. Joins offer
the columns of their inputs one after another, each under the handle of the input, so that a
join inside a join is referred to by its own handle.

Three views of the output agree: its width, its references and its names. Each of them walks
towards the leaves, at most once around the arena: on a longer walk a node was met twice.
-/

namespace QueryPlan

namespace Plan

/-- The width of a node, found on a walk of bounded length. -/
def widthWithin (p : Plan) : Nat → NodeId → Result Nat
  | 0, id => .fail (.cycle id)
  | fuel + 1, id =>
    match p.op id with
    | .scan s => .ok s.fields.length
    | .materializedScan s => .ok s.columns.length
    | .values v => .ok v.columns.length
    | .project j => .ok j.exprs.length
    | .aggregate a => .ok a.width
    | .compound c => .ok c.targets.length
    | .tableFunction t => .ok t.results.length
    | .union _ | .filter _ | .sort _ | .modify _ => do
      widthWithin p fuel (← (p.node id).input 0)
    | .join _ | .leftDeepJoin _ => do
      return (← (p.inputs id).mapM (widthWithin p fuel)).sum

/-- The greatest length of a walk that meets no node twice, with its end. -/
def walkBound (p : Plan) : Nat := p.arena.size + 1

/-- The number of columns of a node. -/
def width (p : Plan) (id : NodeId) : Result Nat := p.widthWithin p.walkBound id

/-- The references to the columns of a node that consumers bind to. -/
def output (p : Plan) (id : NodeId) : Result (List ColumnRef) :=
  match p.op id with
  | .join _ | .leftDeepJoin _ => do
    let parts ← (p.inputs id).mapM fun i => do
      return ColumnRef.range i (← p.widthWithin p.arena.size i)
    return parts.flatten
  | _ => do return ColumnRef.range id (← p.width id)

/-- The input and the position in it behind a position in the columns of several inputs. -/
def locate (width : NodeId → Result Nat) : List NodeId → Nat → Result (Option (NodeId × Nat))
  | [], _ => .ok none
  | i :: rest, column => do
    let w ← width i
    if column < w then return some (i, column) else locate width rest (column - w)

/-- The name of a column, found on a walk of bounded length. -/
def fieldNameWithin (p : Plan) : Nat → NodeId → Nat → Result String
  | 0, id, _ => .fail (.cycle id)
  | fuel + 1, id, column =>
    let named (names : List String) : Result String :=
      .ofOption (.columnOutOfRange column (p.op id).name) names[column]?
    match p.op id with
    | .scan s => named s.fields
    | .materializedScan s => named ((List.range s.columns.length).map fun i => toString i)
    | .values v => named (v.columns.map ColumnInfo.name)
    | .project j => named j.fields
    | .aggregate a => named a.fields
    | .compound c => named c.fields
    | .tableFunction t => named t.fields
    | .filter _ | .sort _ | .union _ | .modify _ => do
      fieldNameWithin p fuel (← (p.node id).input 0) column
    | .join _ | .leftDeepJoin _ => do
      match ← locate (p.widthWithin fuel) (p.inputs id) column with
      | some (i, column) => fieldNameWithin p fuel i column
      | none => .fail (.columnOutOfRange column (p.op id).name)

/-- The name of a column of a node. -/
def fieldName (p : Plan) (id : NodeId) (column : Nat) : Result String :=
  p.fieldNameWithin p.walkBound id column

/-! ### Projections that forward their input -/

/-- Whether a node is a projection to all columns of its input, in any order. -/
def isIdentity (p : Plan) (id : NodeId) : Result Bool :=
  match p.op id with
  | .project j =>
    if j.isSimple then do
      let input ← (p.node id).singleInput
      if (p.op input).isJoin then return false
      else if j.exprs.length != (← p.width input) then return false
      else return j.exprs.all fun
        | .column c => c.source == input
        | _ => false
    else .ok false
  | _ => .ok false

/-- Whether a node is a projection that gives a column another name. -/
def isRenaming (p : Plan) (id : NodeId) : Result Bool :=
  match p.op id with
  | .project j =>
    (j.exprs.zip j.fields).anyM fun
      | (.column c, field) => do return (← p.fieldName c.source c.index) != field
      | _ => .ok false
  | _ => .ok false

end Plan

end QueryPlan
