/-!
# QueryPlan.Expr.ScalarOp

**The operators that are known by name.** Everything else that a plan calls by name is a
function, and is resolved elsewhere.
-/

namespace QueryPlan

/-- A built-in scalar operator. -/
inductive ScalarOp
  | and
  | or
  | not
  | eq
  | notEq
  | lt
  | ltEq
  | gt
  | gtEq
  | isDistinctFrom
  | isNotDistinctFrom
  | plus
  | minus
  | multiply
  | divide
  | modulo
  | negate
  | isNull
  | isNotNull
  | cast
  | isIn
  | arrayAt
  | unnest
  deriving DecidableEq, Repr, Inhabited

namespace ScalarOp

/-- The operator with a name, unless the name is that of a function. -/
def ofName? : String → Option ScalarOp
  | "AND" => some and
  | "OR" => some or
  | "NOT" => some not
  | "=" => some eq
  | "<>" => some notEq
  | "<" => some lt
  | "<=" => some ltEq
  | ">" => some gt
  | ">=" => some gtEq
  | "IS DISTINCT FROM" => some isDistinctFrom
  | "IS NOT DISTINCT FROM" => some isNotDistinctFrom
  | "+" => some plus
  | "-" => some minus
  | "*" => some multiply
  | "/" => some divide
  | "MOD" | "%" => some modulo
  | "UMINUS" => some negate
  | "IS NULL" => some isNull
  | "IS NOT NULL" => some isNotNull
  | "CAST" => some cast
  | "IN" => some isIn
  | "ITEM" => some arrayAt
  | "PG_UNNEST" => some unnest
  | _ => none

/-- The name of an operator. -/
def name : ScalarOp → String
  | and => "AND"
  | or => "OR"
  | not => "NOT"
  | eq => "="
  | notEq => "<>"
  | lt => "<"
  | ltEq => "<="
  | gt => ">"
  | gtEq => ">="
  | isDistinctFrom => "IS DISTINCT FROM"
  | isNotDistinctFrom => "IS NOT DISTINCT FROM"
  | plus => "+"
  | minus => "-"
  | multiply => "*"
  | divide => "/"
  | modulo => "MOD"
  | negate => "UMINUS"
  | isNull => "IS NULL"
  | isNotNull => "IS NOT NULL"
  | cast => "CAST"
  | isIn => "IN"
  | arrayAt => "ITEM"
  | unnest => "PG_UNNEST"

/-- Every operator is found under its own name. -/
theorem ofName?_name (op : ScalarOp) : ofName? op.name = some op := by
  cases op <;> rfl

end ScalarOp

end QueryPlan
