import QueryPlan.Expr.Basic
/-!
# QueryPlan.Expr.Window

**Which expressions are window functions.** Besides a call itself these are the forms into which
planners put windowed sums and averages to handle nulls, and a cast of any of them. Such an
expression is handled as one unit: `Expr.takeWindow?` cuts the first one out of the inside of an
expression.
-/

namespace QueryPlan

namespace Expr

/-- Whether the expression is a call of a certain window function. -/
def isWindowCall (kind : WindowKind) : Expr → Bool
  | .app (.window w) _ => w.kind == kind
  | _ => false

/-- Whether the expression is `CASE WHEN … THEN $SUM0(…)` with this one branch, the form of a
windowed sum. -/
def isWindowSum : Expr → Bool
  | .app .case [_, result] => result.isWindowCall .sumOrZero
  | .app .case [_, result, _] => result.isWindowCall .sumOrZero
  | _ => false

/-- Whether the expression is a window function: a call, a windowed sum, a windowed sum divided
by a count, or a cast of a window function. -/
def isWindow : Expr → Bool
  | .app (.window _) _ => true
  | .app (.operator .cast _) [e] => e.isWindow
  | .app (.operator .divide _) [sum, count] =>
    count.isWindowCall .count && sum.isWindowSum
  | e => e.isWindowSum

mutual

/-- Cuts the first window function out of the parts of an expression and puts `hole` in its
place. -/
def takeWindow? : Expr → Expr → Option (Expr × Expr)
  | .leaf _, _ => none
  | .app head args, hole =>
    (takeWindowAll? args hole).map fun (window, args) => (window, .app head args)

/-- Cuts the first window function out of a list of expressions. Of two that lie in one another
the outer one counts. -/
def takeWindowAll? : List Expr → Expr → Option (Expr × List Expr)
  | [], _ => none
  | e :: es, hole =>
    if e.isWindow then some (e, hole :: es)
    else
      match takeWindow? e hole with
      | some (window, e) => some (window, e :: es)
      | none => (takeWindowAll? es hole).map fun (window, es) => (window, e :: es)

end

end Expr

end QueryPlan
