import QueryPlan.Column
/-!
# QueryPlan.Error

**Why a plan is refused.** Every failure is a `Cause`: one constructor per reason, with the
data that the reason is about. The wording is in `Cause.text` and nowhere else.

A cause belongs to one of four tiers. A *not supported* cause says that the query uses a
construct outside of what is handled; a user may meet it in normal work. An *internal* cause
says that a plan or a caller broke its contract. A *malformed* document could not be read
at all; callers treat that as a broken contract too. A *fatal* cause stops the program where it
stands: arithmetic is checked and does not leave its word, and no recursion goes on for ever, for
the stack is used up before. Nobody gets a report of it.

An `Error` is a cause under the contexts that it passed on its way out, outermost first.
-/

namespace QueryPlan

/-- Who has to act on an error. -/
inductive Tier
  /-- The query uses something that is not handled. -/
  | notSupported
  /-- A contract was broken. -/
  | internal
  /-- The text is no document. -/
  | malformed
  /-- The program stops. -/
  | fatal
  deriving DecidableEq, Repr

/-- The number of inputs that an operator takes. -/
inductive Arity
  | exactly (n : Nat)
  | atLeast (n : Nat)
  deriving DecidableEq, Repr

namespace Arity

/-- Whether `n` inputs are what the operator takes. -/
def admits : Arity → Nat → Bool
  | exactly k, n => n == k
  | atLeast k, n => k <= n

/-- The form that error texts use. -/
def text : Arity → String
  | exactly k => s!"Exact({k})"
  | atLeast k => s!"AtLeast({k})"

end Arity

/-- The reasons for refusing a document, a plan or a request. Operators, expressions and
JSON values that a text quotes are carried in their written form. -/
inductive Cause
  -- Names that mean nothing here.
  | unknownType (name : String)
  | unknownAggregate (name : String)
  | unknownWindowFunction (name : String)
  | unknownJoinType (name : String)
  | unknownModifyOperation (name : String)
  | unknownRelation (name : String)
  | unknownExpression (found : String)
  -- Constructs that are known and not handled.
  | manyAggregateOperands
  | groupingExtension
  | valuesWithInputs
  | modifiedView (operation : String)
  | manyCursorOperands
  | unionDisabled
  | unionDistinct
  /-- A construct that is not handled, described by its finder. -/
  | unsupported (description : String)
  -- JSON values of the wrong shape.
  | missingField (name found : String)
  | notAnObject (found : String)
  | notAString (found : String)
  | notAnInteger (found : String)
  | negative (value : Int)
  | notABool (found : String)
  | notAnArray (found : String)
  | outOfRange (name : String) (value : Int)
  | notANumber (type found : String)
  | literalOfType (type : String)
  | scaledInteger (name : String)
  | missingValue (what : String)
  | notAnExpression (found : String)
  | shortCase (operands : Nat)
  | invalidTypeCode (code : Int)
  -- Relational nodes that contradict themselves or their surroundings.
  | misplacedNode (id position : Nat)
  | invalidNodeId (text : String)
  | invalidInputId (text : String)
  | inputNotBuilt (id built : Nat)
  | scanWithInputs
  | notATablePair (found : String)
  | missingTable (name : String)
  | missingRegistry
  | missingMaterializedTable (id : Int)
  | projectFields (exprs fields : Nat)
  | scatteredGroupKeys (group : List Nat)
  | aggregateFields (fields outputs : Nat)
  | negativeOffset (offset : Int)
  | rowWidth (found expected : Nat)
  | rowEntryNotLiteral (found : String)
  | unknownColumn (column table : String)
  | modifyWithoutProject (operation : String)
  | manyCursors (function : String)
  | cursorWidth (columns declared : Nat)
  | emptyPlan
  -- Requests that a plan cannot serve.
  | notLive (id : NodeId)
  | replacementColumn (column : Nat) (replacement : NodeId)
  | unmappedColumn (column : Nat) (old : NodeId)
  | missingInput (wanted : Nat) (op : String) (present : Nat)
  | notSingleInput (op : String) (present : Nat)
  | inputCount (count : Nat) (op : String) (arity : Arity)
  | cycle (id : NodeId)
  | columnOutOfRange (column : Nat) (op : String)
  | collationOfNonSorts
  | unboundPosition (index width : Nat)
  -- Plans that fail a check.
  | consumedRoot (root : String)
  | unboundInput (node expr : String)
  | unreachableSource (node : String) (source : NodeId)
  | rootConsumedByOthers (root : String)
  -- Passes that meet a plan of another shape.
  | fusedNodeCount (count : Nat)
  | manyFilters
  | filterInputColumn (column : Nat)
  | groupCountTooLarge (groups sources : Nat)
  | unfusable (op : String)
  | notAColumn (expr : String)
  | fusedTarget (column : Nat)
  | fusedSource (column : Nat)
  | joinChainColumn (column : Nat)
  /-- A broken contract, described by its finder. -/
  | broken (description : String)
  /-- The text is no document. -/
  | malformed
  -- Computations that stop the program.
  /-- A product does not fit into its word. -/
  | overflow
  /-- The replacement of the columns of a node by sources that hold columns of it again has no
  end. -/
  | endlessSources
  deriving DecidableEq, Repr

namespace Cause

/-- A list of positions the way debugging output writes it. -/
def listText (positions : List Nat) : String :=
  "[" ++ ", ".intercalate (positions.map fun p => toString p) ++ "]"

/-- The tier that a cause belongs to. -/
def tier : Cause → Tier
  | unknownType _ | unknownAggregate _ | unknownWindowFunction _ | unknownJoinType _
  | unknownModifyOperation _ | unknownRelation _ | unknownExpression _
  | manyAggregateOperands | groupingExtension | valuesWithInputs | modifiedView _
  | manyCursorOperands | unionDisabled | unionDistinct | unsupported _ => .notSupported
  | malformed => .malformed
  | overflow | endlessSources => .fatal
  | _ => .internal

/-- What a cause is reported as, without the words of its tier. -/
def text : Cause → String
  | unknownType name => s!"Unsupported type: {name}"
  | unknownAggregate name => s!"Unsupported aggregate function: {name}"
  | unknownWindowFunction name => s!"Unsupported window function: {name}"
  | unknownJoinType name => s!"Unsupported join type: {name}"
  | unknownModifyOperation name => s!"Unsupported table modify operation: {name}"
  | unknownRelation name => s!"Node {name} not supported yet"
  | unknownExpression found => s!"Expression node {found} not supported"
  | manyAggregateOperands => "Multiple arguments for aggregates aren't supported"
  | groupingExtension => "GROUP BY extensions not supported"
  | valuesWithInputs => "Inputs not supported in logical values yet."
  | modifiedView operation => s!"{operation} of a view is unsupported."
  | manyCursorOperands => "Table functions currently only support one ResultSet input"
  | unionDisabled => "UNION is not supported"
  | unionDistinct => "UNION without ALL is not supported yet."
  | unsupported description => description
  | missingField name found => s!"Missing field '{name}' in {found}"
  | notAnObject found => s!"Expected json object, got {found}"
  | notAString found => s!"Expected json string, got {found}"
  | notAnInteger found => s!"Expected json integer, got {found}"
  | negative value => s!"Expected non-negative integer, got {value}"
  | notABool found => s!"Expected json bool, got {found}"
  | notAnArray found => s!"Expected json array, got {found}"
  | outOfRange name value => s!"Value for '{name}' out of range: {value}"
  | notANumber type found => s!"Expected json number for {type} literal, got {found}"
  | literalOfType type => s!"Unexpected literal type: {type}"
  | scaledInteger name => s!"Expected unscaled integer literal for '{name}'"
  | missingValue what => s!"Missing required value: {what}"
  | notAnExpression found => s!"Expected expression object, got {found}"
  | shortCase operands => s!"CASE requires at least 2 operands, got {operands}"
  | invalidTypeCode code => s!"Invalid type code: {code}"
  | misplacedNode id position => s!"Node id {id} doesn't match its position {position}"
  | invalidNodeId text => s!"Invalid node id '{text}'"
  | invalidInputId text => s!"Invalid input id '{text}'"
  | inputNotBuilt id built =>
      s!"Input id {id} references a node not yet built (have {built})"
  | scanWithInputs => "Scan nodes can't have inputs"
  | notATablePair found => s!"Expected [schema, table] pair, got {found}"
  | missingTable name => s!"Missing table in catalog: {name}"
  | missingRegistry => "Materialized scan without a table registry"
  | missingMaterializedTable id => s!"Missing materialized table with id {id}"
  | projectFields exprs fields => s!"Project has {exprs} expressions but {fields} fields"
  | scatteredGroupKeys group =>
      s!"Group keys must be the leading columns, got {listText group}"
  | aggregateFields fields outputs => s!"Aggregate has {fields} fields for {outputs} outputs"
  | negativeOffset offset => s!"Negative sort offset: {offset}"
  | rowWidth found expected => s!"Values row has {found} columns, expected {expected}"
  | rowEntryNotLiteral found => s!"Values entries must be literals, got {found}"
  | unknownColumn column table => s!"Unknown column '{column}' in table {table}"
  | modifyWithoutProject operation => s!"{operation} expects a project as input"
  | manyCursors function => s!"Table function {function} has more than one cursor input"
  | cursorWidth columns declared =>
      s!"Cursor input has {columns} columns, invocation declares {declared}"
  | emptyPlan => "Plan doesn't contain any nodes"
  | notLive id => s!"Node {id.text} is not part of the DAG"
  | replacementColumn column replacement =>
      s!"Column {column} out of range for replacement {replacement.text}"
  | unmappedColumn column old => s!"Missing index {column} in input mapping for {old.text}"
  | missingInput wanted op present =>
      s!"Expected at least {wanted} inputs to {op}, have {present}"
  | notSingleInput op present =>
      s!"Expected 1 input to {op}, have {present}"
  | inputCount count op arity =>
      s!"Invalid input count {count} for {op} (expected {arity.text})"
  | cycle id => s!"Cycle detected while resolving output of {id.text}"
  | columnOutOfRange column op => s!"Column {column} out of range for {op}"
  | collationOfNonSorts => "Collation equivalence requires two sorts"
  | unboundPosition index width =>
      s!"Input index {index} out of range for output with {width} columns"
  | consumedRoot root => s!"Root {root} has consumers"
  | unboundInput node expr => s!"{node} holds unbound input in {expr}"
  | unreachableSource node source => s!"{node} references unreachable node {source.text}"
  | rootConsumedByOthers root => s!"Root {root} is consumed by other nodes"
  | fusedNodeCount count => s!"Invalid coalesce pattern of {count} nodes"
  | manyFilters => "Multiple filters in coalesce pattern"
  | filterInputColumn column => s!"Column {column} out of range for filter input"
  | groupCountTooLarge groups sources =>
      s!"Group count {groups} exceeds {sources} scalar sources"
  | unfusable op => s!"Unexpected {op} in coalesce pattern"
  | notAColumn expr => s!"Expected column reference, got {expr}"
  | fusedTarget column => s!"Column {column} out of range for coalesced targets"
  | fusedSource column => s!"Column {column} out of range for scalar sources"
  | joinChainColumn column => s!"Column {column} out of range for left-deep join"
  | broken description => description
  | malformed => "failed to parse relational algebra document"
  | overflow => "attempt to multiply with overflow"
  | endlessSources => "stack overflow"

end Cause

/-- A cause and the contexts that it passed, outermost first. -/
structure Error where
  context : List String
  cause : Cause
  deriving DecidableEq, Repr

namespace Error

/-- A cause outside of any context. -/
def of (cause : Cause) : Error := ⟨[], cause⟩

/-- The same error inside one more context. A malformed document keeps none: its report is
the reader's. Nor does what stops the program. -/
def within (e : Error) (context : String) : Error :=
  match e.cause.tier with
  | .malformed | .fatal => e
  | _ => { e with context := context :: e.context }

def tier (e : Error) : Tier := e.cause.tier

/-- Whether a user may meet this error in normal work. -/
def isNotSupported (e : Error) : Bool := e.tier == .notSupported

/-- Whether a contract was broken. A malformed document breaks one too. -/
def isInternal (e : Error) : Bool := e.tier == .internal || e.tier == .malformed

/-- Whether the program stopped. -/
def isFatal (e : Error) : Bool := e.tier == .fatal

/-- The cause behind its contexts, each followed by a colon. -/
def detail (e : Error) : String :=
  ": ".intercalate (e.context ++ [e.cause.text])

/-- The report: the words of the tier, then the detail. -/
def message (e : Error) : String :=
  match e.tier with
  | .notSupported => "Query not supported: " ++ e.detail
  | .internal => "internal error: " ++ e.detail
  | .malformed | .fatal => e.cause.text

@[simp] theorem tier_within (e : Error) (context : String) :
    (e.within context).tier = e.tier := by
  unfold within tier
  split <;> rfl

end Error

/-- The outcome of an operation that can refuse its input. -/
abbrev Result (α : Type) := Except Error α

namespace Result

/-- Refuses for the given cause. -/
def fail {α : Type} (cause : Cause) : Result α := .error (.of cause)

/-- Requires a condition. -/
@[inline] def ensure (condition : Bool) (cause : Cause) : Result Unit :=
  if condition then .ok () else fail cause

/-- Requires a condition. The written forms that the cause quotes are made only where it does not
hold, and to make them may stop the program. -/
@[inline] def ensureQuoting (condition : Bool) (cause : Result Cause) : Result Unit :=
  if condition then .ok () else cause >>= fail

/-- Requires a value. -/
@[inline] def ofOption {α : Type} (cause : Cause) : Option α → Result α
  | some a => .ok a
  | none => fail cause

/-- Requires a value that a caller promised to be there. -/
def required {α : Type} (what : String) (value : Option α) : Result α :=
  ofOption (.missingValue what) value

/-- The values of a list of outcomes, in order, up to the first that refuses. -/
def all {α : Type} (outcomes : List (Result α)) : Result (List α) := outcomes.mapM id

/-- The same outcome, a failure being reported inside a context. -/
def within {α : Type} (context : String) : Result α → Result α
  | .ok a => .ok a
  | .error e => .error (e.within context)

end Result

end QueryPlan
