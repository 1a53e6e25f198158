import QueryPlan.Explain.Node
import QueryPlan.Plan.Basic
/-!
# QueryPlan.Explain.Tree

**A plan as a tree,** unfolded from its root: a node that is read at several places is shown at
each of them. A plan with a cycle has no such tree; its tree is cut as soon as a path is
longer than any path without repetition. A query is shown with its subqueries, and where an entry of
one of them cannot be written nothing of the query is shown.
-/

namespace QueryPlan

/-- The entry of a node above the trees of its inputs. -/
inductive ExplainTree
  | node (entry : Entry) (children : List ExplainTree)
  deriving Repr, Inhabited

/-- The trees of a query: that of the plan, if it has a root, and those of its subqueries. -/
structure Explanation where
  base : Option ExplainTree
  subqueries : List Explanation
  deriving Repr, Inhabited

namespace ExplainTree

mutual

/-- The lines of a tree, each level indented by two blanks. -/
def lines (depth : Nat) : ExplainTree → List String
  | .node entry children =>
    ("".pushn ' ' (2 * depth) ++ entry.text) :: linesAll (depth + 1) children

/-- The lines of several trees. -/
def linesAll (depth : Nat) : List ExplainTree → List String
  | [] => []
  | t :: ts => lines depth t ++ linesAll depth ts

end

end ExplainTree

namespace Plan

/-- The tree under a node, cut below a number of levels. -/
def treeWithin (p : Plan) (verbose : Bool) : Nat → NodeId → Result ExplainTree
  | 0, id => do return .node (← (p.node id).entry verbose) []
  | fuel + 1, id => do
    let entry ← (p.node id).entry verbose
    return .node entry (← (p.inputs id).mapM (treeWithin p verbose fuel))

/-- The tree of a plan. -/
def tree? (p : Plan) (verbose : Bool) : Result (Option ExplainTree) :=
  p.root?.mapM (p.treeWithin verbose (p.arena.size + 1))

end Plan

namespace Query

mutual

/-- The trees of a query. -/
def explain (verbose : Bool) : Query → Result Explanation
  | ⟨plan, subqueries⟩ => do
    let base ← plan.tree? verbose
    return ⟨base, ← explainAll verbose subqueries⟩

/-- The trees of several queries. -/
def explainAll (verbose : Bool) : List Query → Result (List Explanation)
  | [] => return []
  | q :: qs => do
    let e ← explain verbose q
    return e :: (← explainAll verbose qs)

end

/-- The text of the tree of a query, a line for each node. -/
def treeText (verbose : Bool) (q : Query) : Result String := do
  match (← q.explain verbose).base with
  | some t => return String.join ((t.lines 0).map fun line => line ++ "\n")
  | none => return ""

end Query

end QueryPlan
