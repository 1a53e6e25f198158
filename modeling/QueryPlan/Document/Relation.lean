import QueryPlan.Document.Expr
import QueryPlan.Plan.Output
import QueryPlan.Settings
/-!
# QueryPlan.Document.Relation

**Relational nodes in a plan document.** The document lists the nodes, each behind the nodes that
it reads. A node names its inputs by their places in the list, or none at all if it reads the
node before it.

The reader adds one node per entry to a plan whose references are still positional
(`Plan.ofDocument`).
-/

namespace QueryPlan

/-- What a plan is built against. -/
structure Environment where
  catalog : Catalog
  /-- The materialized tables, where there are any to scan. -/
  registry : Option Registry
  settings : Settings
  deriving Inhabited

/-- A count in decimal digits, after a plus sign or none, that fits into 64 bits. -/
def positionOfText? (s : String) : Option Nat :=
  let digits := match s.toList with
    | '+' :: cs => cs
    | cs => cs
  if digits.isEmpty || !digits.all Char.isDigit then none
  else
    let n := digits.foldl (fun n c => n * 10 + (c.toNat - 48)) 0
    if n < 2 ^ 64 then some n else none

namespace Relation

/-- The place that an entry claims. -/
def idOf (j : Json) : Result Nat := do
  match ← j.field "id" with
  | .string s => .ofOption (.invalidNodeId s) (positionOfText? s)
  | id => id.asNat

/-- The node before the one that is read. -/
def previous (p : Plan) : Result NodeId := Result.required "previous node" p.root?

/-- The inputs of an entry. -/
def inputsOf (p : Plan) (j : Json) : Result (List NodeId) :=
  if j.has "inputs" then do
    (← (← j.field "inputs").asTexts).mapM fun s => do
      let place ← .ofOption (.invalidInputId s) (positionOfText? s)
      .ofOption (.inputNotBuilt place p.order.length) p.order[place]?
  else do return [← previous p]

/-- The table of an entry, given as a pair of schema and name. -/
def tableOf (env : Environment) (j : Json) : Result Table := do
  let pair ← j.field "table"
  match ← pair.asList with
  | [_, name] => do
    let name ← name.asText
    .ofOption (.missingTable name) (env.catalog.table? name)
  | _ => .fail (.notATablePair pair.excerpt)

/-- The scan of a table. -/
def scan (env : Environment) (j : Json) : Result Operator := do
  let inputs ← (← j.field "inputs").asList
  Result.ensure inputs.isEmpty .scanWithInputs
  let table ← tableOf env j
  return .scan ⟨table, ← (← j.field "fieldNames").asTexts⟩

/-- The type of a column of a materialized table, whose kind is given by its code. -/
def materializedColumn (j : Json) : Result SqlType := do
  let kind ← SqlKind.ofCode (← (← j.field "type").asInt)
  return .plain kind (← (← j.field "nullable").asBool)

/-- The scan of a materialized table. -/
def materializedScan (env : Environment) (j : Json) : Result Operator := do
  let table ← j.field "table"
  let id ← (← table.field "id").asInt
  let columns ← (← (← table.field "cols").asList).mapM materializedColumn
  let registry ← .ofOption .missingRegistry env.registry
  return .materializedScan ⟨id, columns, ← registry.get id⟩

/-- A projection. -/
def project (read : Json → Build Expr) (j : Json) : Build Operator := do
  let exprs ← (← (← j.field "exprs").asList).mapM read
  let fields ← (← j.field "fields").asTexts
  Result.ensure (exprs.length == fields.length) (.projectFields exprs.length fields.length)
  return .project (.plain exprs fields)

/-- A filter. -/
def filter (read : Json → Build Expr) (j : Json) : Build Operator := do
  return .filter ⟨← read (← j.field "condition")⟩

/-- A grouping by leading columns. -/
def aggregate (j : Json) : Result Operator := do
  let fields ← (← j.field "fields").asTexts
  let group ← (← j.field "group").asNats
  Result.ensure (group == List.range group.length) (.scatteredGroupKeys group)
  Result.ensure (!(j.has "groups" || j.has "indicator")) .groupingExtension
  let calls ← (← (← j.field "aggs").asList).mapM AggregateCall.ofDocument
  let outputs := group.length + calls.length
  Result.ensure (fields.length == outputs) (.aggregateFields fields.length outputs)
  return .aggregate ⟨group.length, calls, fields, false⟩

/-- A join. -/
def join (read : Json → Build Expr) (j : Json) : Build Operator := do
  let kind ← JoinKind.ofName (← (← j.field "joinType").asText)
  return .join ⟨← read (← j.field "condition"), kind⟩

/-- A sort. A limit of zero asks for no rows, and a negative one is no limit. -/
def sort (j : Json) : Result Operator := do
  let collation ← (← (← j.field "collation").asList).mapM fun key => do
    SortKey.ofDocument (← (← key.field "field").asNat) key
  let fetch ← j.countField "fetch"
  let offset := (← j.countField "offset").getD 0
  Result.ensure (0 ≤ offset) (.negativeOffset offset)
  let limit := (fetch.filter fun n => 0 < n).map Int.toNat
  return .sort ⟨collation, limit, offset.toNat, fetch == some 0⟩

/-- An entry of a row of literals. -/
def rowEntry (j : Json) : Result Literal := do
  Result.ensure (j.has "literal") (.rowEntryNotLiteral j.excerpt)
  Literal.ofDocument j

/-- A row of literals of a certain width. -/
def row (width : Nat) (j : Json) : Result (List Literal) := do
  let entries ← j.asList
  Result.ensure (entries.length == width) (.rowWidth entries.length width)
  entries.mapM rowEntry

/-- Rows of literals. -/
def values (j : Json) : Result Operator := do
  let columns ← (← (← j.field "type").asList).mapM ColumnInfo.ofDocument
  let inputs ← (← j.field "inputs").asList
  Result.ensure inputs.isEmpty .valuesWithInputs
  let rows ← (← (← j.field "tuples").asList).mapM (row columns.length)
  return .values ⟨columns, rows⟩

/-- The kind of change that an operation makes to existing rows. -/
def changeOf : ModifyOperation → Option ModifyKind
  | .insert => none
  | .update => some .update
  | .delete => some .delete

/-- Whether one of the columns to assign holds values that differ in length. All of them are
required to exist. -/
def assignsVariableLength (table : Table) (columns : List String) : Result Bool := do
  let kinds ← columns.mapM fun name => do
    let column ← .ofOption (.unknownColumn name table.name) (table.column? name)
    return column.type.kind
  return kinds.any SqlKind.isVariableLength

/-- Marks the projection below an update or a delete. -/
def markTarget (p : Plan) (operation : ModifyOperation) (target : ModifyTarget)
    (inputs : List NodeId) : Result Plan := do
  let input ← Result.required "modify input" inputs.head?
  match p.op input with
  | .project j => return p.setOp input (.project { j with target := some target })
  | _ => .fail (.modifyWithoutProject operation.name)

/-- A change of a table, and the plan with the projection below it marked. -/
def modify (env : Environment) (p : Plan) (inputs : List NodeId) (j : Json) :
    Result (Plan × Operator) := do
  let table ← tableOf env j
  let operation ← ModifyOperation.ofName (← (← j.field "operation").asText)
  let flattened ← (← j.field "flattened").asBool
  let columns ←
    if operation = .update then (← j.field "updateColumnList").asTexts else .ok []
  let op := Operator.modify ⟨table, operation, flattened, columns⟩
  match changeOf operation with
  | none => return (p, op)
  | some kind =>
    Result.ensure (!table.isView) (.modifiedView operation.name)
    let variableLength ← assignsVariableLength table columns
    return (← markTarget p operation ⟨kind, table, columns, variableLength⟩ inputs, op)

/-- Whether an operand of a table function is a cursor over the rows of the node before. -/
def isCursor (j : Json) : Result Bool := do
  if !j.has "op" then return false
  else if (← (← j.field "op").asText) != ScalarOp.cast.name then return false
  else
    match j.get? "type" with
    | none => return false
    | some type => return (← (← type.field "type").asText) == SqlKind.cursor.name

/-- The positions that a cursor operand forwards: all columns of the node before, which the
invocation has to declare. -/
def cursorColumns (p : Plan) (invocation operand : Json) : Result (List Nat) := do
  let cursors ← (← operand.field "operands").asList
  Result.ensure (cursors.length == 1) .manyCursorOperands
  let width ← p.width (← previous p)
  let declared ← (← invocation.field "type").asList
  Result.ensure (declared.length == width) (.cursorWidth width declared.length)
  return List.range width

/-- Takes in one operand of a table function, behind the cursor columns and the arguments so
far. -/
def addOperand (read : Json → Build Expr) (p : Plan) (function : String) (invocation : Json)
    (state : List Nat × List Expr) (operand : Json) : Build (List Nat × List Expr) := do
  let (cursor, args) := state
  if ← isCursor operand then
    Result.ensure cursor.isEmpty (.manyCursors function)
    let columns ← cursorColumns p invocation operand
    return (columns, args ++ columns.map Expr.positional)
  else return (cursor, args ++ [← read operand])

/-- A call of a table function. -/
def tableFunction (read : Json → Build Expr) (p : Plan) (j : Json) : Build Operator := do
  let invocation ← j.field "invocation"
  let function ← (← invocation.field "op").asText
  let operands ← (← invocation.field "operands").asList
  let (cursor, args) ← operands.foldlM (addOperand read p function invocation) ([], [])
  let width := (← (← j.field "rowType").asList).length
  let fields := List.replicate width ""
  return .tableFunction ⟨function, fields, cursor, args, (List.range width).map Expr.supplied⟩

/-- A union. -/
def union (env : Environment) (j : Json) : Result Operator := do
  Result.ensure env.settings.enableUnion .unionDisabled
  let all ← (← j.field "all").asBool
  Result.ensure all .unionDistinct
  return .union ⟨all⟩

/-- The inputs and the operator of an entry, and the plan in which they are found. -/
def nodeOf (env : Environment) (read : Json → Build Expr) (p : Plan) (j : Json) :
    Build (Plan × List NodeId × Operator) := do
  let reading (op : Build Operator) : Build (Plan × List NodeId × Operator) := do
    let inputs ← inputsOf p j
    return (p, inputs, ← op)
  match ← (← j.field "relOp").asText with
  | "EnumerableTableScan" => return (p, [], ← scan env j)
  | "NurgiTableScan" => return (p, [], ← materializedScan env j)
  | "LogicalProject" => reading (project read j)
  | "LogicalFilter" => reading (filter read j)
  | "LogicalAggregate" => reading (aggregate j)
  | "LogicalJoin" => reading (join read j)
  | "LogicalSort" => reading (sort j)
  | "LogicalValues" => return (p, [], ← values j)
  | "LogicalTableModify" =>
    let inputs ← inputsOf p j
    let (p, op) ← modify env p inputs j
    return (p, inputs, op)
  | "LogicalTableFunctionScan" => reading (tableFunction read p j)
  | "LogicalUnion" => reading (union env j)
  | name => Result.fail (.unknownRelation name)

/-- Adds the node of an entry to a plan. -/
def addNode (env : Environment) (read : Json → Build Expr) (p : Plan) (j : Json) :
    Build Plan := do
  let id ← idOf j
  let place := p.order.length
  Result.ensure (id == place) (.misplacedNode id place)
  let (p, inputs, op) ← nodeOf env read p j
  let node := Node.make (← Build.ofFresh freshId) inputs op
  Result.within s!"Node at position {place}" node.checkInputs
  return p.push node

end Relation

/-- The plan with a node for each entry of a list, references being positional. -/
def Plan.ofDocument (env : Environment) (read : Json → Build Expr) (j : Json) : Build Plan := do
  (← j.asList).foldlM (Relation.addNode env read) .empty

end QueryPlan
