import QueryPlan.Plan.Redirect
import QueryPlan.Pass.Fresh
/-!
# QueryPlan.Pass.WindowNarrowing

**Narrow inputs for window functions.** A projection with a window function gets another
projection below it, to the columns that it reads, if its input has more than these. Wide
inputs are expensive where the input of a window function has to be moved.
-/

namespace QueryPlan

/-- The positions of a node's columns that expressions read, in ascending order. If they read a
column of another node, the result is empty. -/
def positionsRead (input : NodeId) (exprs : List Expr) : List Nat :=
  let columns := exprs.flatMap Expr.columns
  if columns.all fun c => c.source == input then
    (columns.map ColumnRef.index).eraseDups.mergeSort
  else []

namespace Plan

/-- Puts a projection to some columns of its input below a node. -/
def insertNarrowing (p : Plan) (id input : NodeId) (kept : List Nat) : Fresh Plan := do
  let exprs := kept.map fun i => Expr.column ⟨input, i⟩
  let node := Node.make (← freshId) [input] (.project (.plain exprs (kept.map fun _ => "")))
  let narrow := p.nextId
  let p ← p.insertBefore id node
  p.replaceInput id input narrow (some (.ofKept kept))

/-- Narrows the input of a node, if it is a projection with a window function. -/
def narrowWindow (p : Plan) (id : NodeId) : Fresh Plan := do
  match p.op id with
  | .project j =>
    if !j.hasWindow then return p
    else
      let input ← (p.node id).singleInput
      let read := positionsRead input j.exprs
      if read.isEmpty then return p
      else if read.length == (← p.width input) then return p
      else p.insertNarrowing id input read
  | _ => return p

/-- Narrows the inputs of projections with window functions. -/
def narrowWindows (p : Plan) : Fresh Plan := p.order.foldlM narrowWindow p

end Plan

end QueryPlan
