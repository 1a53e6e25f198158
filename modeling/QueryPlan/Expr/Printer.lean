import QueryPlan.Expr.Basic
/-!
# QueryPlan.Expr.Printer

**The written form of expressions,** as plans and error texts show it. The form of an
application depends on its head and on the texts of its arguments. Writing a literal may stop the
program, and so may writing what shows the literal.
-/

namespace QueryPlan

/-- The written form of a subquery: the build id of its root. -/
def Subquery.text (q : Subquery) : String :=
  match q.root with
  | some id => s!"SUBQUERY({id})"
  | none => "SUBQUERY(empty)"

/-- The written form of a leaf. -/
def Leaf.text : Leaf → Result String
  | .positional i => .ok s!"${i}"
  | .column c => .ok c.text
  | .literal l => l.text
  | .supplied i => .ok s!"&{i}"
  | .subquery q _ => .ok q.text

namespace Head

/-- A name before its arguments. -/
def callText (name : String) (args : List String) : String :=
  name ++ "(" ++ ", ".intercalate args ++ ")"

/-- The branches of a `CASE`: conditions and results in turn, then the `ELSE`. -/
def caseText : List String → String
  | condition :: result :: rest =>
    " WHEN " ++ condition ++ " THEN " ++ result ++ caseText rest
  | [otherwise] => " ELSE " ++ otherwise
  | [] => ""

/-- The written form of an operator. -/
def operatorText (op : ScalarOp) (type : SqlType) : List String → String
  | [x] =>
    match op with
    | .cast => "CAST(" ++ x ++ " AS " ++ type.kind.name ++ ")"
    | .isNull | .isNotNull => "(" ++ x ++ " " ++ op.name ++ ")"
    | _ => callText op.name [x]
  | [x, y] =>
    match op with
    | .isIn => callText op.name [x, y]
    | _ => "(" ++ x ++ " " ++ op.name ++ " " ++ y ++ ")"
  | args => callText op.name args

/-- The written form of an application, from the texts of the arguments. -/
def text : Head → List (Result String) → Result String
  | .operator op type, args => do return operatorText op type (← Result.all args)
  | .function name _, args => do return callText name (← Result.all args)
  | .window call, args => call.text args
  | .case, args => do return "CASE" ++ caseText (← Result.all args) ++ " END"

end Head

namespace Expr

mutual

/-- The written form of an expression. -/
def text : Expr → Result String
  | .leaf l => l.text
  | .app head args => head.text (textAll args)

/-- The written forms of a list of expressions. -/
def textAll : List Expr → List (Result String)
  | [] => []
  | e :: es => text e :: textAll es

end

end Expr

end QueryPlan
