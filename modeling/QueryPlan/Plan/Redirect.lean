import QueryPlan.Plan.Output
/-!
# QueryPlan.Plan.Redirect

**Letting consumers read another node.** When a node takes the place of another one, the nodes
that read the old one get the new one as input, and their references to the old columns are
resolved against the columns of the new node.

What a reference becomes depends on who holds it. A node with a single input reads the output
of its input, so if the new node is a join its references name the inputs of that join. Joins
refer to their inputs themselves, and nodes that see the old one through a join keep doing so;
their references name the new node.
-/

namespace QueryPlan

namespace Plan

/-- The columns of `new` that stand for those of `old` in the expressions of a node. -/
def replacementColumns (p : Plan) (node old new : NodeId) : Result (List ColumnRef) :=
  if (p.inputs node).contains old && !(p.op node).isJoin then p.output new
  else do return ColumnRef.range new (← p.width new)

/-- A position in the output of `old` after the mapping. -/
def mappedPosition (old : NodeId) (mapping : Option ColumnMap) (column : Nat) : Result Nat :=
  match mapping with
  | none => .ok column
  | some m => .ofOption (.unmappedColumn column old) (m.get? column)

/-- A reference of a node that reads `new` in place of `old`. -/
def redirectColumn (old new : NodeId) (mapping : Option ColumnMap) (columns : List ColumnRef)
    (c : ColumnRef) : Result ColumnRef :=
  if c.source = old then do
    let i ← mappedPosition old mapping c.index
    .ofOption (.replacementColumn i new) columns[i]?
  else .ok c

/-- Lets a node read `new` in place of `old`. A mapping gives the new positions of the old
columns; without one they keep their positions. -/
def replaceInput (p : Plan) (node old new : NodeId) (mapping : Option ColumnMap) :
    Result Plan := do
  let columns ← p.replacementColumns node old new
  let op ← (p.op node).mapExprsM (Expr.mapColumnsM (redirectColumn old new mapping columns))
  let op ←
    if (p.inputs node).contains old && mapping.isSome then
      op.mapPositionsM (mappedPosition old mapping)
    else .ok op
  let inputs := (p.inputs node).map fun i => if i = old then new else i
  return p.modify node fun n => { n with inputs := inputs, op := op }

/-- Lets every live node but `new` read `new` in place of `old`. -/
def replaceInputEverywhere (p : Plan) (old new : NodeId) (mapping : Option ColumnMap) :
    Result Plan :=
  (p.order.filter fun n => n != new).foldlM
    (fun p node => p.replaceInput node old new mapping) p

/-- Takes a node with a single input out of the plan; its consumers read that input. -/
def bypass (p : Plan) (id : NodeId) (mapping : Option ColumnMap) : Result Plan := do
  let input ← (p.node id).singleInput
  let p ← p.replaceInputEverywhere id input mapping
  return p.remove id

end Plan

end QueryPlan
