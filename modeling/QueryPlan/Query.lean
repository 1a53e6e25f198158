import QueryPlan.Binding
import QueryPlan.Document.Relation
import QueryPlan.Json.Reader
import QueryPlan.Plan.Validity
import QueryPlan.Pass.Pipeline
/-!
# QueryPlan.Query

**From a document to a query.** A plan is read, its positions are bound to columns, and it is
optimized and checked. `Query.ofDocument` gives the optimized query and `Query.unoptimized` the
bound one; subqueries are optimized in both.

A subquery is built when its expression is read. Its document lies inside of the enclosing
one, so the depth of the document bounds the recursion.
-/

namespace QueryPlan

namespace Plan

/-- Optimizes a bound plan and checks the result. -/
def finish (env : Environment) (p : Plan) : Build Plan := do
  let p ← Build.ofFresh (p.optimize env.settings)
  if env.settings.validate then p.validate
  return p

/-- The bound plan of a document, given what builds the plans of subqueries. -/
def boundOfDocument (env : Environment) (nested : Expr.PlanBuilder) (j : Json) : Build Plan := do
  let p ← Plan.ofDocument env (Expr.ofDocument nested) (← j.field "rels")
  Result.ensure (!p.order.isEmpty) .emptyPlan
  p.bind

/-- Builds the plan of a subquery inside a document of at most so many levels. -/
def subqueryWithin (env : Environment) : Nat → Expr.PlanBuilder
  | 0, j => Result.fail (.notAnObject j.excerpt)
  | fuel + 1, j => do
    let p ← boundOfDocument env (subqueryWithin env fuel) j
    Build.finishSubquery (.ofPlan (← p.finish env))

/-- Builds the plan of a subquery. -/
def subqueryOfDocument (env : Environment) : Expr.PlanBuilder := fun j =>
  subqueryWithin env (j.depth + 1) j

end Plan

namespace Query

/-- What a build gives: its plan, with all subqueries registered one after another. -/
def ofBuild (m : Build Plan) : Result Query := do
  let (plan, state) ← m.run .start
  return state.subqueries.foldl register (.ofPlan plan)

/-- The bound query of a document. -/
def unoptimized (env : Environment) (j : Json) : Result Query :=
  ofBuild (Plan.boundOfDocument env (Plan.subqueryOfDocument env) j)

/-- The optimized query of a document. -/
def ofDocument (env : Environment) (j : Json) : Result Query :=
  ofBuild do
    let p ← Plan.boundOfDocument env (Plan.subqueryOfDocument env) j
    p.finish env

/-- The value in the text of a document. Of a repeated member the last one counts. -/
def documentOfText (text : String) : Result Json := do return (← Json.ofText text).normalize

/-- The bound query of a text. -/
def unoptimizedOfText (env : Environment) (text : String) : Result Query := do
  unoptimized env (← documentOfText text)

/-- The optimized query of a text. -/
def ofText (env : Environment) (text : String) : Result Query := do
  ofDocument env (← documentOfText text)

end Query

end QueryPlan
