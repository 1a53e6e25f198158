import QueryPlan.Plan.Redirect
import QueryPlan.Pass.Fresh
/-!
# QueryPlan.Pass.WindowSeparation

**Window functions inside larger expressions.** A projection with such an expression is split in
two. The lower one computes the window function in place of the expression. The upper one, a
new node right above, computes the expression with a reference in place of the window
function and forwards all other columns. What the expression reads from the input of the
projection is forwarded by additional columns of the lower one.

Expressions that are window functions themselves stay as they are.
-/

namespace QueryPlan

/-- A projection taken apart: what the lower half computes, what the upper half computes, and
whether a window function was found. -/
structure SplitExprs where
  lower : List Expr
  upper : List Expr
  found : Bool

/-- Takes the expressions of a node apart, from a position on. -/
def splitWindows (id : NodeId) : List Expr → Nat → SplitExprs
  | [], _ => ⟨[], [], false⟩
  | e :: es, i =>
    let rest := splitWindows id es (i + 1)
    let here : Expr := .column ⟨id, i⟩
    if e.isWindow then ⟨e :: rest.lower, here :: rest.upper, rest.found⟩
    else
      match e.takeWindow? here with
      | some (window, e) => ⟨window :: rest.lower, e :: rest.upper, true⟩
      | none => ⟨e :: rest.lower, here :: rest.upper, rest.found⟩

/-- Lets an expression read forwarded columns of a node in place of columns from below. The
state is the list of the columns forwarded so far; they stand behind the first `width`
columns of the node. -/
def forwardColumns (id : NodeId) (width : Nat) (e : Expr) : StateM (List ColumnRef) Expr :=
  if e.isColumn then return e
  else e.mapColumnsM fun c => do
    if c.source = id then return c
    else
      let forwarded ← get
      match forwarded.idxOf? c with
      | some k => return ⟨id, width + k⟩
      | none =>
        set (forwarded ++ [c])
        return ⟨id, width + forwarded.length⟩

namespace Plan

/-- The name of a forwarded column: that which a projection gives it, else none. -/
def forwardedName (p : Plan) (c : ColumnRef) : String :=
  match p.op c.source with
  | .project j => (j.fields[c.index]?).getD ""
  | _ => ""

/-- Splits a projection with a window function inside an expression. -/
def separateWindow (p : Plan) (id : NodeId) : Fresh Plan :=
  match p.op id with
  | .project j =>
    let split := splitWindows id j.exprs 0
    if !split.found then return p
    else do
      let (upper, forwarded) := (split.upper.mapM (forwardColumns id j.exprs.length)).run []
      let lower := { j with
        exprs := split.lower ++ forwarded.map Expr.column
        fields := j.fields ++ forwarded.map p.forwardedName }
      let buildId ← freshId
      let node := Node.make buildId [id] (.project (.plain upper j.fields))
      let p := p.setOp id (.project lower)
      let newId := p.nextId
      let p ← p.insertAfter id node
      p.replaceInputEverywhere id newId none
  | _ => return p

/-- Splits projections with window functions inside expressions. -/
def separateWindows (p : Plan) : Fresh Plan := p.order.foldlM separateWindow p

end Plan

end QueryPlan
