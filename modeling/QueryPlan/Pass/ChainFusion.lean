import QueryPlan.Plan.Redirect
import QueryPlan.Pass.FusedNode
import QueryPlan.Pass.Fresh
/-!
# QueryPlan.Pass.ChainFusion

**Fusing chains of nodes into compounds.** A chain is a filter, a projection, an aggregate and
a projection to columns, in this order, each read by the next one only. It has a projection and
at least two nodes. Filters that root a chain of joins are left alone, for they hold join
conditions.

The pass walks over the places of the live order as it was at the start. From a node that may
begin a chain it follows the only use of the last node as long as the chain goes on, then it
returns to the first place that it has not visited. A place is empty once its node is part of a
compound, which stands at the place of its last node.

Each step visits the current place. Between two returns the walk only moves to later places and
begins anew at most once at each of them, so a number of steps that is quadratic in the number
of places suffices.
-/

namespace QueryPlan

/-- How far a chain has come. -/
inductive ChainStage
  /-- Nothing is taken yet. -/
  | start
  | filtered
  | projected
  | grouped
  deriving DecidableEq, Repr, Inhabited

/-- A walk over the places of a plan. -/
structure ChainWalk where
  plan : Plan
  /-- The nodes at the places. -/
  slots : List (Option NodeId)
  /-- The current place, if there is one. -/
  place : Option Nat
  /-- The places visited so far, each once. -/
  visited : List Nat
  stage : ChainStage
  /-- The places of the chain, first to last. -/
  chain : List Nat
  deriving Inhabited

namespace Plan

/-- The stage that a chain reaches with a node, if it goes on with it. -/
def nextStage? (p : Plan) (joinRoots : List NodeId) (stage : ChainStage) (id : NodeId) :
    Option ChainStage :=
  match stage, p.op id with
  | .start, .filter _ => if joinRoots.contains id then none else some .filtered
  | .start, .project _ => some .projected
  | .filtered, .project j => if j.hasWindow then none else some .projected
  | .projected, .aggregate _ => some .grouped
  | _, _ => none

/-- Whether a column is the first key of an aggregate. -/
def isFirstKey (p : Plan) (c : ColumnRef) : Bool :=
  match p.op c.source with
  | .aggregate a => c.index == 0 && 0 < a.groupCount
  | _ => false

/-- Whether an expression is a column or has nothing but first keys of aggregates at its
leaves. -/
def isPassThrough (p : Plan) (e : Expr) : Bool :=
  e.isColumn || e.leaves.all fun
    | .column c => p.isFirstKey c
    | _ => false

/-- Whether a node is a projection that can end a chain behind an aggregate. -/
def endsChain (p : Plan) (id : NodeId) : Bool :=
  match p.op id with
  | .project j => j.exprs.all p.isPassThrough
  | _ => false

/-- Puts a compound into the place of the last node of a chain and takes the others out. -/
def replaceChain (p : Plan) (chain : List NodeId) (first last : NodeId) :
    Fresh Plan := do
  let compound ← p.fuseChain chain
  let input ← (p.node first).singleInput
  let node := Node.make (← freshId) [input] (.compound compound)
  let fused := p.nextId
  let p ← (p.alloc node).replaceInOrder last fused
  (chain.dropLast.foldl remove p).replaceInputEverywhere last fused none

end Plan

namespace ChainWalk

/-- The walk before its first step. -/
def ofPlan (p : Plan) : ChainWalk :=
  { plan := p
    slots := p.order.map some
    place := if p.order.isEmpty then none else some 0
    visited := []
    stage := .start
    chain := [] }

/-- Whether every place was visited. -/
def isDone (w : ChainWalk) : Bool := w.slots.length ≤ w.visited.length

/-- The node at a place. -/
def nodeAt (w : ChainWalk) (place : Nat) : Option NodeId := (w.slots[place]?).join

/-- The current place and its node. -/
def current? (w : ChainWalk) : Option (Nat × NodeId) := do
  let place ← w.place
  return (place, ← w.nodeAt place)

/-- Marks the current place as visited. -/
def visit (w : ChainWalk) : ChainWalk :=
  match w.place with
  | some i => if w.visited.contains i then w else { w with visited := i :: w.visited }
  | none => w

/-- The place of the only use of a node, among the places behind a given one. -/
def onlyUse? (w : ChainWalk) (place : Nat) (id : NodeId) : Option Nat :=
  let uses := (List.range w.slots.length).filterMap fun i =>
    if place < i then
      match w.nodeAt i with
      | some consumer => some (i, (w.plan.node consumer).uses id)
      | none => none
    else none
  match uses.filter fun (_, n) => n != 0 with
  | [(i, 1)] => some i
  | _ => none

/-- Goes to the only use of the current node, if it has one. -/
def toOnlyUse (w : ChainWalk) : ChainWalk :=
  { w with place := do
      let (place, id) ← w.current?
      w.onlyUse? place id }

/-- Goes to the first place that was not visited. -/
def toUnvisited (w : ChainWalk) : ChainWalk :=
  { w with place := (List.range w.slots.length).find? fun i => !w.visited.contains i }

/-- Adds a place to the chain. -/
def take (w : ChainWalk) (place : Nat) (stage : ChainStage) : ChainWalk :=
  { w with chain := w.chain ++ [place], stage := stage }

/-- Forgets the chain. -/
def restart (w : ChainWalk) : ChainWalk := { w with stage := .start, chain := [] }

/-- Replaces the nodes of the chain by a compound. -/
def fuse (w : ChainWalk) : Fresh ChainWalk := do
  let count := w.chain.length
  Result.ensure (2 ≤ count && count ≤ 4) (.fusedNodeCount count)
  let ids ← w.chain.mapM fun i => Result.required "coalesced node" (w.nodeAt i)
  match ids, ids.getLast?, w.chain.getLast? with
  | first :: _, some last, some lastPlace =>
    let fused := w.plan.nextId
    let plan ← w.plan.replaceChain ids first last
    let slots := w.chain.dropLast.foldl (fun slots i => slots.set i none) w.slots
    return { w with plan := plan, slots := slots.set lastPlace (some fused) }
  | _, _, _ => return w

/-- One step of the walk. -/
def step (joinRoots : List NodeId) (w : ChainWalk) : Fresh ChainWalk :=
  let w := w.visit
  match w.stage with
  | .grouped => do
    let w := match w.current? with
      | some (place, id) =>
        if w.plan.endsChain id then (w.take place .grouped).toUnvisited else w
      | none => w
    return (← w.fuse).restart
  | stage =>
    let next? := do
      let (place, id) ← w.current?
      return (place, ← w.plan.nextStage? joinRoots stage id)
    match next?, stage with
    | some (place, next), _ => return (w.take place next).toOnlyUse
    | none, .start => return w.toUnvisited
    | none, .projected => do
      if 2 ≤ w.chain.length then return (← w.fuse).restart else return w.restart
    | none, _ => return w.restart

/-- The walk after a number of steps, or where it is done. -/
def run (joinRoots : List NodeId) : Nat → ChainWalk → Fresh ChainWalk
  | 0, w => return w
  | fuel + 1, w => do
    if w.isDone then return w else run joinRoots fuel (← w.step joinRoots)

/-- A number of steps after which every walk over so many places is done. -/
def stepBound (places : Nat) : Nat := 2 * (places + 2) * (places + 2)

/-- Fuses the chain that is still open when every place was visited. -/
def finish (w : ChainWalk) : Fresh ChainWalk :=
  match w.stage with
  | .projected | .grouped => if 2 ≤ w.chain.length then w.fuse else return w
  | _ => return w

end ChainWalk

namespace Plan

/-- Fuses chains of nodes into compounds. -/
def fuseChains (joinRoots : List NodeId) (p : Plan) : Fresh Plan := do
  let w ← (ChainWalk.ofPlan p).run joinRoots (ChainWalk.stepBound p.order.length)
  return (← w.finish).plan

end Plan

end QueryPlan
