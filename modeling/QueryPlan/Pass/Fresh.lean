import QueryPlan.Plan.Basic
/-!
# QueryPlan.Pass.Fresh

**Build ids for new nodes.** A build numbers its nodes as they are made, across the plan and the
plans of its subqueries. A pass that makes nodes carries the next number along.
-/

namespace QueryPlan

/-- A computation that may take build ids and may refuse. -/
abbrev Fresh := StateT Nat Result

/-- Takes the next build id. -/
def freshId : Fresh Nat := fun next => .ok (next, next + 1)

end QueryPlan
