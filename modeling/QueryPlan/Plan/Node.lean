import QueryPlan.Operator
/-!
# QueryPlan.Plan.Node

**A node of a plan:** an operator and the nodes that it reads, in the order of the operator.
-/

namespace QueryPlan

/-- A node of a plan. -/
structure Node where
  /-- A number that is unique in a build, also across the plans of its subqueries. -/
  buildId : Nat
  inputs : List NodeId
  op : Operator
  /-- Names and types of the columns, where a later stage has filled them in. -/
  output : List ColumnInfo
  /-- Whether an execution has attached data to the node. -/
  hasContext : Bool
  deriving Repr, Inhabited

namespace Node

/-- A node as a build makes it. -/
def make (buildId : Nat) (inputs : List NodeId) (op : Operator) : Node :=
  ⟨buildId, inputs, op, [], false⟩

/-- The input at a place. -/
def input (n : Node) (place : Nat) : Result NodeId :=
  .ofOption (.missingInput (place + 1) n.op.name n.inputs.length) n.inputs[place]?

/-- The only input. -/
def singleInput (n : Node) : Result NodeId :=
  match n.inputs with
  | [i] => .ok i
  | is => .fail (.notSingleInput n.op.name is.length)

/-- Requires as many inputs as the operator takes. -/
def checkInputs (n : Node) : Result Unit :=
  .ensure (n.op.arity.admits n.inputs.length)
    (.inputCount n.inputs.length n.op.name n.op.arity)

/-- The number of places at which a node reads another one. -/
def uses (n : Node) (id : NodeId) : Nat := n.inputs.count id

/-- The node without data of an execution. -/
def reset (n : Node) : Node := { n with hasContext := false }

theorem singleInput_eq_ok {n : Node} {i : NodeId} :
    n.singleInput = .ok i ↔ n.inputs = [i] := by
  unfold singleInput
  split
  · next h => simp [h]
  · next h =>
    constructor
    · intro hf
      cases hf
    · intro hi
      exact absurd hi (h i)

end Node

end QueryPlan
