import QueryPlan.Expr.Conjunction
import QueryPlan.Plan.Redirect
import QueryPlan.Pass.Fresh
/-!
# QueryPlan.Pass.JoinChains

**Flattening chains of joins.** A chain follows the left inputs of joins for as long as they are
joins that only the chain reads. It becomes one node with all relations as inputs. The
conditions of inner joins are collected in its condition, together with that of a filter right
above the chain; each left join keeps its own condition at its level.

The columns of every join of the chain are the first of the columns of the flattened inputs, so a
reference to a join of the chain keeps its position and only its node changes.
-/

namespace QueryPlan

namespace Plan

/-- The node at the top of a chain of joins right below a node: the node itself if it is a
filter over an inner join, since its condition joins too, otherwise the join that is its only
input. -/
def joinRoot? (p : Plan) (id : NodeId) : Option NodeId :=
  match p.inputs id with
  | [input] =>
    match p.op input with
    | .join j =>
      match p.op id, j.kind with
      | .filter _, .inner => some id
      | _, _ => some input
    | _ => none
  | _ => none

/-- The tops of chains below the live nodes, in order. -/
def joinRoots (p : Plan) : List NodeId := p.order.filterMap p.joinRoot?

/-- Whether a node is a binary join. -/
def isBinaryJoin (p : Plan) (id : NodeId) : Bool :=
  match p.op id with
  | .join _ => true
  | _ => false

/-- Whether a node is a filter. -/
def isFilter (p : Plan) (id : NodeId) : Bool :=
  match p.op id with
  | .filter _ => true
  | _ => false

/-- The filter over a chain, if there is one to take in, and the topmost join. -/
def chainTop (p : Plan) (root : NodeId) : Result (Option NodeId × NodeId) :=
  if p.isFilter root then do
    let join ← (p.node root).singleInput
    return (if p.useCount join == 1 then some root else none, join)
  else .ok (none, root)

/-- The joins of a chain from one of them down, and the leftmost relation. -/
def chainBelow (p : Plan) : Nat → NodeId → Result (List NodeId × NodeId)
  | 0, join => do return ([join], ← (p.node join).input 0)
  | fuel + 1, join => do
    let left ← (p.node join).input 0
    if p.isBinaryJoin left && p.useCount left == 1 then
      let (below, leftmost) ← chainBelow p fuel left
      return (join :: below, leftmost)
    else return ([join], left)

end Plan

/-- The levels of a chain, from the leftmost join up. -/
structure ChainLevels where
  /-- The right input of each level. -/
  inputs : List NodeId
  kinds : List JoinKind
  /-- The condition of each left join. -/
  outer : List (Option Expr)
  /-- The conjuncts of the conditions of inner joins. -/
  conjuncts : List Expr

namespace ChainLevels

/-- No levels. -/
def none : ChainLevels := ⟨[], [], [], []⟩

/-- One more level on top. -/
def push (l : ChainLevels) (input : NodeId) (j : Join) : ChainLevels :=
  let (outer, conjuncts) := match j.kind with
    | .inner => (Option.none, j.condition.conjuncts)
    | .left => (some j.condition, [])
  { inputs := l.inputs ++ [input]
    kinds := l.kinds ++ [j.kind]
    outer := l.outer ++ [outer]
    conjuncts := l.conjuncts ++ conjuncts }

end ChainLevels

namespace Plan

/-- The levels up to a node of a chain. -/
def addLevel (p : Plan) (l : ChainLevels) (id : NodeId) : Result ChainLevels :=
  match p.op id with
  | .join j => do return l.push (← (p.node id).input 1) j
  | _ => .ok l

/-- The conjuncts of a filter. -/
def filterConjuncts (p : Plan) (id : NodeId) : List Expr :=
  match p.op id with
  | .filter f => f.condition.conjuncts
  | _ => []

/-- The columns of several nodes, each under its own handle. -/
def flattenedColumns (p : Plan) (ids : List NodeId) : Result (List ColumnRef) := do
  return (← ids.mapM fun id => do return ColumnRef.range id (← p.width id)).flatten

/-- An expression with references to joins of a chain resolved against the flattened
columns. -/
def resolveChain (joins : List NodeId) (columns : List ColumnRef) : Expr → Result Expr :=
  Expr.mapColumnsM fun c =>
    if joins.contains c.source then .ofOption (.joinChainColumn c.index) columns[c.index]?
    else .ok c

/-- The operator and the inputs that stand for a chain of joins, topmost first, over a leftmost
relation and below a filter. -/
def flattenChain (p : Plan) (filter : Option NodeId) (joins : List NodeId) (leftmost : NodeId) :
    Result (List NodeId × LeftDeepJoin) := do
  let levels ← joins.reverse.foldlM p.addLevel .none
  let conjuncts := levels.conjuncts ++ filter.toList.flatMap p.filterConjuncts
  let condition := (Expr.all? (conjuncts.filter fun e => !e.isTrue)).getD (Expr.bool true)
  let inputs := leftmost :: levels.inputs
  let columns ← p.flattenedColumns inputs
  let condition ← resolveChain joins columns condition
  let outer ← levels.outer.mapM fun e => e.mapM (resolveChain joins columns)
  let replacedIds := (filter.toList ++ joins).map fun id => (p.node id).buildId
  return (inputs, ⟨condition, outer, levels.kinds, replacedIds⟩)

/-- Moves the references of live nodes but one from several nodes to another one. -/
def redirectAll (p : Plan) (except : NodeId) (old : List NodeId) (new : NodeId) : Plan :=
  (p.order.filter fun n => n != except).foldl (fun p n =>
    let redirect (e : Expr) : Id Expr := old.foldl (fun e o => e.redirect o new) e
    p.setOp n ((p.op n).mapExprsM redirect).run) p

/-- Lets everything that reads a node of a chain read the flattened node, and takes the node out
unless the flattened node stands in its place already. -/
def retire (flattened top : NodeId) (p : Plan) (old : NodeId) : Result Plan := do
  let p ← p.replaceInputEverywhere old flattened none
  return if old = top then p else p.remove old

/-- Retires the nodes of a chain. -/
def retireAll (p : Plan) (flattened top : NodeId) (old : List NodeId) : Result Plan :=
  old.foldlM (retire flattened top) p

/-- Flattens the chain of joins with a top. -/
def flattenAt (p : Plan) (root : NodeId) : Fresh Plan := do
  let (filter, topJoin) ← p.chainTop root
  let (joins, leftmost) ← p.chainBelow p.walkBound topJoin
  let (inputs, op) ← p.flattenChain filter joins leftmost
  let node := Node.make (← freshId) inputs (.leftDeepJoin op)
  let flattened := p.nextId
  let top := filter.getD topJoin
  let p ← (p.alloc node).replaceInOrder top flattened
  let p := p.redirectAll flattened joins.tail topJoin
  p.retireAll flattened top (filter.toList ++ joins)

/-- Flattens chains of joins. -/
def flattenJoins (p : Plan) : Fresh Plan :=
  p.joinRoots.eraseDups.foldlM (fun p root =>
    if p.isLive root then p.flattenAt root else return p) p

end Plan

end QueryPlan
