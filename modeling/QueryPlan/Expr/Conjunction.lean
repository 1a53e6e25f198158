import QueryPlan.Expr.Basic
/-!
# QueryPlan.Expr.Conjunction

**Conditions as lists of conjuncts.** `Expr.conjuncts` takes a condition apart through any
nesting of `AND`, and `Expr.all?` puts conditions together again.
-/

namespace QueryPlan

namespace Expr

mutual

/-- The parts of a condition that are no `AND`, left to right. -/
def conjuncts : Expr → List Expr
  | .app (.operator .and _) args => conjunctsAll args
  | e => [e]

/-- The conjuncts of a list of conditions, left to right. -/
def conjunctsAll : List Expr → List Expr
  | [] => []
  | e :: es => conjuncts e ++ conjunctsAll es

end

/-- The conjunction of conditions. A single condition stands for itself. -/
def all? : List Expr → Option Expr
  | [] => none
  | [e] => some e
  | es => some (.app (.operator .and SqlType.condition) es)

end Expr

end QueryPlan
