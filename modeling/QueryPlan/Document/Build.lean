import QueryPlan.Plan.Basic
import QueryPlan.Pass.Fresh
/-!
# QueryPlan.Document.Build

**What a build carries along:** the next build id and the subqueries that are finished. A subquery
is finished before the plan that contains it, and within it its own subqueries before it. They all
wait here for the outermost plan, so nothing is registered with a subquery.
-/

namespace QueryPlan

/-- The state of a build. -/
structure BuildState where
  nextId : Nat
  /-- The finished subqueries, in the order in which they were finished. -/
  subqueries : List Query
  deriving Inhabited

/-- The state before the first node. -/
def BuildState.start : BuildState := ⟨0, []⟩

/-- A step of a build. -/
abbrev Build := StateT BuildState Result

namespace Build

/-- A pass over a plan as a step of a build. -/
def ofFresh {α : Type} (m : Fresh α) : Build α := fun s => do
  let (a, nextId) ← m s.nextId
  return (a, { s with nextId := nextId })

/-- Keeps a finished subquery and gives what expressions show of it. -/
def finishSubquery (q : Query) : Build Subquery := fun s =>
  let p := q.plan
  let shown := ⟨s.subqueries.length, p.order.length, p.root?.map fun id => (p.node id).buildId⟩
  .ok (shown, { s with subqueries := s.subqueries ++ [q] })

end Build

end QueryPlan
