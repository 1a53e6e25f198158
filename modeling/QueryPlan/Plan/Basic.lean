import QueryPlan.Plan.Node
/-!
# QueryPlan.Plan.Basic

**Plans.** The nodes of a plan stand in an arena that only grows, so handles stay good. The
live order lists the nodes that are part of the plan, each behind its inputs, the root last.
A pass that drops a node takes it out of the order and leaves it in the arena.

`Query` is what a build gives: a plan and the list of the queries that are registered with it. A
subquery is a query too, with a list of its own.
-/

namespace QueryPlan

-- Sums start at the zero of the core library, also where a module imports another one.
attribute [scoped instance (high)] Zero.ofOfNat0

/-- Nodes, and the order of those that are live. -/
structure Plan where
  arena : Array Node
  order : List NodeId
  deriving Repr, Inhabited

namespace Plan

/-- The plan without nodes. -/
def empty : Plan := ⟨#[], []⟩

/-- The node with a handle. A handle from elsewhere stands for a node without inputs and
columns. -/
def node (p : Plan) (id : NodeId) : Node := (p.arena[id.index]?).getD default

/-- The operator of a node. -/
def op (p : Plan) (id : NodeId) : Operator := (p.node id).op

/-- The inputs of a node. -/
def inputs (p : Plan) (id : NodeId) : List NodeId := (p.node id).inputs

/-- The last live node. -/
def root? (p : Plan) : Option NodeId := p.order.getLast?

/-- The place of a live node in the order. -/
def position? (p : Plan) (id : NodeId) : Option Nat := p.order.idxOf? id

/-- Whether a node is live. -/
def isLive (p : Plan) (id : NodeId) : Bool := p.order.contains id

/-- The place of a node in the order, which is required to be live. -/
def livePosition (p : Plan) (id : NodeId) : Result Nat :=
  .ofOption (.notLive id) (p.position? id)

/-- The live nodes that read a node, in order. -/
def consumers (p : Plan) (id : NodeId) : List NodeId :=
  p.order.filter fun n => (p.inputs n).contains id

/-- The number of places at which live nodes read a node. -/
def useCount (p : Plan) (id : NodeId) : Nat :=
  (p.order.map fun n => (p.node n).uses id).sum

/-! ### Adding and removing nodes -/

/-- The handle that the next node gets. -/
def nextId (p : Plan) : NodeId := ⟨p.arena.size⟩

/-- Adds a node that is not live. Its handle is `nextId`. -/
def alloc (p : Plan) (n : Node) : Plan := { p with arena := p.arena.push n }

/-- Adds a node as the root. -/
def push (p : Plan) (n : Node) : Plan :=
  { p.alloc n with order := p.order ++ [p.nextId] }

/-- Adds a node right behind a live one. -/
def insertAfter (p : Plan) (anchor : NodeId) (n : Node) : Result Plan := do
  let place ← p.livePosition anchor
  return { p.alloc n with order := p.order.insertIdx (place + 1) p.nextId }

/-- Adds a node right before a live one. -/
def insertBefore (p : Plan) (anchor : NodeId) (n : Node) : Result Plan := do
  let place ← p.livePosition anchor
  return { p.alloc n with order := p.order.insertIdx place p.nextId }

/-- Puts a node into the place of a live one. -/
def replaceInOrder (p : Plan) (old new : NodeId) : Result Plan := do
  let place ← p.livePosition old
  return { p with order := p.order.set place new }

/-- Takes a node out of the order. -/
def remove (p : Plan) (id : NodeId) : Plan :=
  { p with order := p.order.filter fun n => n != id }

/-- Changes a node. -/
def modify (p : Plan) (id : NodeId) (f : Node → Node) : Plan :=
  { p with arena := p.arena.modify id.index f }

/-- Gives a node another operator. -/
def setOp (p : Plan) (id : NodeId) (op : Operator) : Plan :=
  p.modify id fun n => { n with op := op }

/-- The plan without data of an execution. -/
def reset (p : Plan) : Plan := { p with arena := p.arena.map Node.reset }

end Plan

/-- A plan and the queries that are registered with it: those of its subqueries. -/
structure Query where
  plan : Plan
  subqueries : List Query
  deriving Repr, Inhabited

namespace Query

/-- A plan with which nothing is registered. -/
def ofPlan (p : Plan) : Query := ⟨p, []⟩

/-- Registers a query. -/
def register (q s : Query) : Query := { q with subqueries := q.subqueries ++ [s] }

end Query

end QueryPlan
