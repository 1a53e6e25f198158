import QueryPlan.Aggregate
import QueryPlan.Catalog.Basic
import QueryPlan.Collation
import QueryPlan.Expr.Window
/-!
# QueryPlan.Operator

**The relational operators.** An operator says how the rows of a node come from the rows of its
inputs. The inputs themselves belong to the node.

`Operator.exprs` lists the scalar expressions of an operator, and `Operator.mapExprsM`
changes them in the same order. Positions (group keys, aggregate operands, sort keys, cursor
columns) are no expressions and are changed on their own, by `Operator.mapPositionsM`.
-/

namespace QueryPlan

/-- How a join treats rows of the left input without a partner. -/
inductive JoinKind
  /-- They are dropped. -/
  | inner
  /-- They are kept, with nulls for the right input. -/
  | left
  deriving DecidableEq, Repr, Inhabited

namespace JoinKind

/-- The join with a name. -/
def ofName : String → Result JoinKind
  | "inner" | "INNER" => .ok inner
  | "left" | "LEFT" => .ok left
  | name => .fail (.unknownJoinType name)

/-- The name of a join. -/
def name : JoinKind → String
  | inner => "INNER"
  | left => "LEFT"

end JoinKind

/-- How a table is changed. -/
inductive ModifyOperation
  | insert
  | update
  | delete
  deriving DecidableEq, Repr, Inhabited

namespace ModifyOperation

/-- The operation with a name. -/
def ofName : String → Result ModifyOperation
  | "INSERT" => .ok insert
  | "UPDATE" => .ok update
  | "DELETE" => .ok delete
  | name => .fail (.unknownModifyOperation name)

/-- The name of an operation. -/
def name : ModifyOperation → String
  | insert => "INSERT"
  | update => "UPDATE"
  | delete => "DELETE"

end ModifyOperation

/-- The changes that need the rows which they change. -/
inductive ModifyKind
  | update
  | delete
  deriving DecidableEq, Repr, Inhabited

/-- Marks the node that produces the rows to be changed. -/
structure ModifyTarget where
  kind : ModifyKind
  table : Table
  /-- The columns that an update assigns. -/
  columns : List String
  /-- Whether one of these columns holds values that differ in length. -/
  variableLength : Bool
  deriving DecidableEq, Repr, Inhabited

/-- A scan of a table, with a column for each name. -/
structure Scan where
  table : Table
  fields : List String
  deriving DecidableEq, Repr, Inhabited

/-- A scan of a materialized table. Its columns are named by their positions. -/
structure MaterializedScan where
  id : Int
  columns : List SqlType
  data : MaterializedTable
  deriving DecidableEq, Repr, Inhabited

/-- One column for each expression; `fields` names them. -/
structure Project where
  exprs : List Expr
  fields : List String
  target : Option ModifyTarget
  deriving Repr, Inhabited

namespace Project

/-- A projection that changes no table. -/
def plain (exprs : List Expr) (fields : List String) : Project := ⟨exprs, fields, none⟩

/-- Whether every expression is a column. -/
def isSimple (p : Project) : Bool := p.exprs.all Expr.isColumn

/-- Whether one of the expressions is a window function. -/
def hasWindow (p : Project) : Bool := p.exprs.any Expr.isWindow

end Project

/-- The rows for which a condition holds. -/
structure Filter where
  condition : Expr
  deriving Repr, Inhabited

/-- One row for each group of rows that agree on the leading columns: those columns, then a
column for each call. -/
structure Aggregate where
  groupCount : Nat
  calls : List AggregateCall
  fields : List String
  /-- Set if the rows are grouped this way already, so that nothing is left to do. -/
  isNop : Bool
  deriving DecidableEq, Repr, Inhabited

/-- The number of columns. -/
def Aggregate.width (a : Aggregate) : Nat := a.groupCount + a.calls.length

/-- The pairs of rows of two inputs for which a condition holds, the columns of the left input
first. -/
structure Join where
  condition : Expr
  kind : JoinKind
  deriving Repr, Inhabited

/-- The rows in order, without the first `offset` and cut after `limit`. -/
structure Sorting where
  collation : List SortKey
  limit : Option Nat
  offset : Nat
  /-- Set if no row was asked for. -/
  empty : Bool
  deriving DecidableEq, Repr, Inhabited

/-- Whether rows are only put in order. -/
def Sorting.isPlain (s : Sorting) : Bool := s.limit.isNone && s.offset == 0 && !s.empty

/-- Rows of literals. -/
structure Values where
  columns : List ColumnInfo
  rows : List (List Literal)
  deriving Repr, Inhabited

/-- A change of a table by the rows of the input. -/
structure Modify where
  table : Table
  operation : ModifyOperation
  flattened : Bool
  /-- The columns that an update assigns. -/
  columns : List String
  deriving DecidableEq, Repr, Inhabited

/-- A call of a function that gives a table. -/
structure TableFunction where
  function : String
  fields : List String
  /-- The columns of the input that a cursor argument forwards. -/
  cursorColumns : List Nat
  args : List Expr
  /-- One value for each field, supplied by the function. -/
  results : List Expr
  deriving Repr, Inhabited

/-- The rows of two or more inputs of one shape. -/
structure Union where
  all : Bool
  deriving DecidableEq, Repr, Inhabited

/-- Where a column of a compound comes from. -/
inductive CompoundTarget
  /-- A source, by its position. -/
  | source (index : Nat)
  /-- An aggregate call, by its position. -/
  | call (index : Nat)
  deriving DecidableEq, Repr, Inhabited

/-- Written `src#0` or `agg#0`. -/
def CompoundTarget.text : CompoundTarget → String
  | source i => s!"src#{i}"
  | call i => s!"agg#{i}"

/-- A filter, a projection and possibly a grouping in one node. The sources are evaluated on
the rows that pass the filter. Operands of calls are positions of sources; the first
`groupCount` sources are the group keys, and supplied values among the sources are group
keys, counted from one. -/
structure Compound where
  filter : Option Expr
  sources : List Expr
  groupCount : Nat
  calls : List AggregateCall
  /-- One entry for each column; `fields` names them. -/
  targets : List CompoundTarget
  fields : List String
  isAggregate : Bool
  target : Option ModifyTarget
  deriving Repr, Inhabited

/-- The expression behind a column, unless the column is an aggregate. -/
def Compound.targetSource? (c : Compound) (column : Nat) : Option Expr :=
  match c.targets[column]? with
  | some (.source i) => c.sources[i]?
  | _ => none

/-- A chain of joins in one node. The first input is the leftmost relation, and input `i` is the
right side of level `i` of the chain. -/
structure LeftDeepJoin where
  /-- What the joined rows have to satisfy in the end: the conditions of the inner levels and
  of the filter above the chain. -/
  condition : Expr
  /-- For each level the condition of a left join. -/
  outer : List (Option Expr)
  /-- For each level the kind of join. -/
  kinds : List JoinKind
  /-- The build ids of the nodes that the chain replaced, outermost first. -/
  replacedIds : List Nat
  deriving Repr, Inhabited

/-- A relational operator. -/
inductive Operator
  | scan (s : Scan)
  | materializedScan (s : MaterializedScan)
  | project (p : Project)
  | filter (f : Filter)
  | aggregate (a : Aggregate)
  | join (j : Join)
  | sort (s : Sorting)
  | values (v : Values)
  | modify (m : Modify)
  | tableFunction (t : TableFunction)
  | union (u : Union)
  | compound (c : Compound)
  | leftDeepJoin (j : LeftDeepJoin)
  deriving Repr

namespace Operator

/-- The operator without inputs and without columns. -/
instance : Inhabited Operator := ⟨.values ⟨[], []⟩⟩

/-- The name of an operator. -/
def name : Operator → String
  | scan _ => "Scan"
  | materializedScan _ => "MaterializedScan"
  | project _ => "Project"
  | filter _ => "Filter"
  | aggregate _ => "Aggregate"
  | join _ => "Join"
  | sort _ => "Sort"
  | values _ => "Values"
  | modify _ => "Modify"
  | tableFunction _ => "TableFunction"
  | union _ => "Union"
  | compound _ => "Compound"
  | leftDeepJoin _ => "LeftDeepJoin"

/-- The number of inputs that an operator takes. -/
def arity : Operator → Arity
  | scan _ | materializedScan _ | values _ => .exactly 0
  | project _ | filter _ | aggregate _ | sort _ | modify _ | tableFunction _ | compound _ =>
    .exactly 1
  | join _ => .exactly 2
  | union _ | leftDeepJoin _ => .atLeast 2

/-- Whether the operator joins. Consumers see through a join to the columns of its inputs. -/
def isJoin : Operator → Bool
  | join _ | leftDeepJoin _ => true
  | _ => false

/-- The scalar expressions of an operator. -/
def exprs : Operator → List Expr
  | project p => p.exprs
  | filter f => [f.condition]
  | join j => [j.condition]
  | tableFunction t => t.args ++ t.results
  | compound c => c.filter.toList ++ c.sources
  | leftDeepJoin j => j.condition :: j.outer.filterMap id
  | scan _ | materializedScan _ | aggregate _ | sort _ | values _ | modify _ | union _ => []

/-- The columns that the expressions of an operator refer to. -/
def columns (op : Operator) : List ColumnRef := op.exprs.flatMap Expr.columns

/-- The operator with its expressions changed, in the order of `exprs`. -/
def mapExprsM {m : Type → Type} [Monad m] (f : Expr → m Expr) : Operator → m Operator
  | project p => do return project { p with exprs := ← p.exprs.mapM f }
  | filter g => do return filter { g with condition := ← f g.condition }
  | join j => do return join { j with condition := ← f j.condition }
  | tableFunction t => do
    let args ← t.args.mapM f
    let results ← t.results.mapM f
    return tableFunction { t with args := args, results := results }
  | compound c => do
    let filter ← c.filter.mapM f
    let sources ← c.sources.mapM f
    return compound { c with filter := filter, sources := sources }
  | leftDeepJoin j => do
    let condition ← f j.condition
    let outer ← j.outer.mapM fun e => e.mapM f
    return leftDeepJoin { j with condition := condition, outer := outer }
  | op@(scan _) | op@(materializedScan _) | op@(aggregate _) | op@(sort _) | op@(values _)
  | op@(modify _) | op@(union _) => return op

/-- The operator with the positions changed at which it reads columns of its input. Group
keys stay, since they are always the leading columns. -/
def mapPositionsM {m : Type → Type} [Monad m] (f : Nat → m Nat) : Operator → m Operator
  | aggregate a => do
    return aggregate { a with calls := ← a.calls.mapM fun c => c.mapOperandsM f }
  | sort s => do
    return sort { s with
      collation := ← s.collation.mapM fun k => do return { k with column := ← f k.column } }
  | tableFunction t => do
    return tableFunction { t with cursorColumns := ← t.cursorColumns.mapM f }
  | op => return op

end Operator

end QueryPlan
