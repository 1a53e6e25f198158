import QueryPlan.Explain.Entry
import QueryPlan.Expr.Printer
import QueryPlan.Plan.Node
/-!
# QueryPlan.Explain.Node

**What is shown of a node.** A verbose entry adds field names, positions and the origin of
fused nodes to what every entry shows. There is no entry if one of the expressions that it shows
cannot be written.
-/

namespace QueryPlan

/-- The text of a truth value. -/
def boolText (b : Bool) : String := if b then "true" else "false"

namespace LeftDeepJoin

/-- The conditions of the left joins, each behind the number of its level. -/
def outerTexts (j : LeftDeepJoin) : Result (List String) :=
  Result.all (j.outer.zipIdx.filterMap fun (e, i) => e.map fun e => do
    let condition ← e.text
    return s!"{i + 1}: {condition}")

end LeftDeepJoin

/-- The entry of an operator. -/
def Operator.entry (verbose : Bool) : Operator → Result Entry
  | .scan s =>
    return (Entry.named "Scan").put "table" s.table.name |>.putListIf verbose "fields" s.fields
  | .materializedScan s =>
    return (Entry.named "MaterializedScan").put "table_id" (toString s.id)
      |>.putIf verbose "num_columns" (toString s.columns.length)
  | .project p => do
    return (Entry.named "Project").putList "exprs" (← p.exprs.mapM Expr.text)
      |>.putListIf verbose "fields" p.fields
      |>.putOption "modifies" (p.target.map fun t => t.table.name)
  | .filter f => do return (Entry.named "Filter").put "condition" (← f.condition.text)
  | .aggregate a =>
    return (Entry.named "Aggregate").put "group_count" (toString a.groupCount)
      |>.putList "aggregates" (a.calls.map AggregateCall.text)
      |>.putListIf verbose "fields" a.fields
      |>.putIf a.isNop "nop" "true"
  | .join j => do
    return (Entry.named "Join").put "join_type" j.kind.name
      |>.put "condition" (← j.condition.text)
  | .sort s =>
    return (Entry.named "Sort").putList "collation" (s.collation.map SortKey.text)
      |>.putOption "limit" (s.limit.map fun n => toString n)
      |>.putIf (s.offset != 0) "offset" (toString s.offset)
      |>.putIf s.empty "empty_result" "true"
  | .values v =>
    return (Entry.named "Values").put "num_rows" (toString v.rows.length)
      |>.putListIf verbose "columns" (v.columns.map ColumnInfo.text)
  | .modify m =>
    return (Entry.named "Modify").put "operation" m.operation.name
      |>.put "table" m.table.name
      |>.putListIf verbose "columns" m.columns
  | .tableFunction t => do
    return (Entry.named "TableFunction").put "function" t.function
      |>.putList "inputs" (← t.args.mapM Expr.text)
      |>.putIf verbose "cursor_columns" (Entry.positionsText t.cursorColumns)
      |>.putListIf verbose "fields" t.fields
  | .union u => return (Entry.named "Union").put "all" (boolText u.all)
  | .compound c => do
    return (Entry.named "Compound").putOption "filter" (← c.filter.mapM Expr.text)
      |>.putList "sources" (← c.sources.mapM Expr.text)
      |>.putIf c.isAggregate "group_count" (toString c.groupCount)
      |>.putListIf c.isAggregate "aggregates" (c.calls.map AggregateCall.text)
      |>.putListIf verbose "targets" (c.targets.map CompoundTarget.text)
      |>.putListIf verbose "fields" c.fields
      |>.putOption "modifies" (c.target.map fun t => t.table.name)
  | .leftDeepJoin j => do
    let condition ← j.condition.text
    let outer ← j.outerTexts
    return (Entry.named "LeftDeepJoin").put "condition" condition
      |>.putList "join_types" (j.kinds.map JoinKind.name)
      |>.putListIf (!outer.isEmpty) "outer_conditions" outer
      |>.putListIf verbose "original_ids" (j.replacedIds.map fun i => toString i)

namespace Node

/-- The entry of a node: that of its operator and its build id. -/
def entry (verbose : Bool) (n : Node) : Result Entry := do
  return ((← n.op.entry verbose).put "id" (toString n.buildId)).putListIf
    (verbose && !n.output.isEmpty) "output" (n.output.map ColumnInfo.text)

/-- The line that error texts show of a node. -/
def text (n : Node) : Result String := do return (← n.entry false).text

end Node

end QueryPlan
