import QueryPlan.Column
import QueryPlan.Expr.Literal
import QueryPlan.Expr.ScalarOp
import QueryPlan.Expr.WindowCall
/-!
# QueryPlan.Expr.Basic

**Scalar expressions.** An expression is a tree: at its leaves stand constants and references,
and every inner node is a **head** applied to a list of arguments. All that a traversal has to
know about the many kinds of heads is the order of the arguments, so a traversal is one clause
for leaves and one for applications.

Changing an expression means putting expressions in place of its leaves
(`Expr.mapLeavesM`). A leaf that stands for a subquery is a leaf like any other: the nodes
of the nested plan are out of reach.

### Arguments

* A built-in operator or a function is applied to its operands.
* `CASE` is applied to its conditions and results in turn; an odd last argument is the `ELSE`.
* For window functions see `WindowCall`.
-/

namespace QueryPlan

/-- A subquery of a build: its place in the list of the finished subqueries, and what is shown
of its plan. -/
structure Subquery where
  index : Nat
  /-- The number of live nodes. -/
  size : Nat
  /-- The build id of the root. -/
  root : Option Nat
  deriving DecidableEq, Repr, Inhabited

/-- An expression without parts. -/
inductive Leaf
  /-- Position in the outputs of the owner's inputs, taken together. Binding replaces it. -/
  | positional (index : Nat)
  /-- A column of a node. -/
  | column (ref : ColumnRef)
  | literal (value : Literal)
  /-- A value that the owning node supplies: a group key, counted from one, or a result of a
  table function. -/
  | supplied (index : Nat)
  /-- The value of a nested plan. -/
  | subquery (query : Subquery) (type : Option SqlType)
  deriving DecidableEq, Repr, Inhabited

namespace Leaf

/-- The column that a leaf refers to. -/
def column? : Leaf → Option ColumnRef
  | .column c => some c
  | _ => none

/-- Whether the leaf is a positional reference. -/
def isPositional : Leaf → Bool
  | .positional _ => true
  | _ => false

end Leaf

/-- What is applied to arguments. -/
inductive Head
  | operator (op : ScalarOp) (type : SqlType)
  /-- A function that is resolved elsewhere. -/
  | function (name : String) (type : SqlType)
  | window (call : WindowCall)
  | case
  deriving DecidableEq, Repr, Inhabited

/-- A scalar expression. -/
inductive Expr
  | leaf (l : Leaf)
  | app (head : Head) (args : List Expr)
  deriving Repr

namespace Expr

instance : Inhabited Expr := ⟨.leaf default⟩

/-- A positional reference. -/
@[match_pattern] abbrev positional (index : Nat) : Expr := .leaf (.positional index)

/-- A reference to a column. -/
@[match_pattern] abbrev column (ref : ColumnRef) : Expr := .leaf (.column ref)

/-- A constant. -/
@[match_pattern] abbrev literal (value : Literal) : Expr := .leaf (.literal value)

/-- A value that the owning node supplies. -/
@[match_pattern] abbrev supplied (index : Nat) : Expr := .leaf (.supplied index)

/-- A truth value. -/
def bool (b : Bool) : Expr := .literal (.bool b)

/-! ### Traversals -/

mutual

/-- The leaves, left to right. -/
def leaves : Expr → List Leaf
  | .leaf l => [l]
  | .app _ args => leavesAll args

/-- The leaves of a list of expressions, left to right. -/
def leavesAll : List Expr → List Leaf
  | [] => []
  | e :: es => leaves e ++ leavesAll es

end

mutual

/-- The number of subexpressions, the expression itself among them. -/
def size : Expr → Nat
  | .leaf _ => 1
  | .app _ args => sizeAll args + 1

/-- The number of subexpressions of a list of expressions. -/
def sizeAll : List Expr → Nat
  | [] => 0
  | e :: es => size e + sizeAll es

end

mutual

/-- The expression with another one in place of each leaf, the leaves visited left to
right. -/
def mapLeavesM {m : Type → Type} [Monad m] (f : Leaf → m Expr) : Expr → m Expr
  | .leaf l => f l
  | .app head args => do return .app head (← mapLeavesAllM f args)

/-- `mapLeavesM` on every expression of a list, from left to right. -/
def mapLeavesAllM {m : Type → Type} [Monad m] (f : Leaf → m Expr) :
    List Expr → m (List Expr)
  | [] => return []
  | e :: es => do
    let e ← mapLeavesM f e
    let es ← mapLeavesAllM f es
    return e :: es

end

mutual

/-- The expression with another one in place of each leaf. -/
def mapLeaves (f : Leaf → Expr) : Expr → Expr
  | .leaf l => f l
  | .app head args => .app head (mapLeavesAll f args)

/-- `mapLeaves` on every expression of a list. -/
def mapLeavesAll (f : Leaf → Expr) : List Expr → List Expr
  | [] => []
  | e :: es => mapLeaves f e :: mapLeavesAll f es

end

/-! ### References -/

/-- The columns that the expression refers to, left to right, with repetitions. -/
def columns (e : Expr) : List ColumnRef := e.leaves.filterMap Leaf.column?

/-- Whether a positional reference is left. -/
def hasPositional (e : Expr) : Bool := e.leaves.any Leaf.isPositional

/-- The expression with another column in place of each column. -/
def mapColumns (f : ColumnRef → ColumnRef) : Expr → Expr :=
  mapLeaves fun
    | .column c => .column (f c)
    | l => .leaf l

/-- The expression with another column in place of each column, from left to right. -/
def mapColumnsM {m : Type → Type} [Monad m] (f : ColumnRef → m ColumnRef) : Expr → m Expr :=
  mapLeavesM fun
    | .column c => do return .column (← f c)
    | l => return .leaf l

/-- The expression with every reference to a column of `old` moved to the column of `new` at
the same position. -/
def redirect (old new : NodeId) : Expr → Expr :=
  mapColumns fun c => if c.source = old then ⟨new, c.index⟩ else c

/-- Whether the expression is a reference to a column. -/
def isColumn : Expr → Bool
  | .column _ => true
  | _ => false

/-- Whether the expression has no parts. -/
def isLeaf : Expr → Bool
  | .leaf _ => true
  | .app _ _ => false

/-- Whether the expression is the constant `true`. -/
def isTrue : Expr → Bool
  | .literal l => l.isTrue
  | _ => false

/-! ### Binding -/

/-- Puts columns in place of positional references, left to right, up to the first position
that the output does not have. The state is that position, once it is met. -/
def bindM (output : List ColumnRef) : Expr → StateM (Option Nat) Expr :=
  mapLeavesM fun
    | .positional i => do
      match ← get with
      | some _ => return .positional i
      | none =>
        match output[i]? with
        | some c => return .column c
        | none =>
          set (some i)
          return .positional i
    | l => return .leaf l

/-- The expression with a column of the output in place of each positional reference. -/
def bind (output : List ColumnRef) (e : Expr) : Result Expr :=
  match (e.bindM output).run none with
  | (e, none) => .ok e
  | (_, some i) => .fail (.unboundPosition i output.length)

end Expr

end QueryPlan
