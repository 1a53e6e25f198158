import QueryPlan.Expr.Printer
import QueryPlan.Plan.Output
/-!
# QueryPlan.Pass.FusedNode

**The compound that stands for a chain of nodes.** The chain is read from its first node on,
each node reading the one before it. A filter becomes the filter of the compound, the first
projection its sources and an aggregate its calls. A later projection only rearranges the
targets; what it computes on its own is added to the sources.

Every stage of the chain has its own positions. Sources stay where they are once they are made,
and `Compound.targets` says which source or call each position of the last stage stands for.
-/

namespace QueryPlan

/-- A compound made from the first nodes of a chain. -/
structure Fusion where
  compound : Compound
  /-- The node that became the filter. -/
  filterNode : Option NodeId
  /-- The last of the nodes read so far. -/
  lastNode : Option NodeId
  /-- Whether a projection was among them. -/
  projected : Bool

namespace Fusion

/-- Before the first node. -/
def start : Fusion := ⟨⟨none, [], 0, [], [], [], false, none⟩, none, none, false⟩

/-- The target behind a column of the last node, given as an expression. -/
def targetOf (targets : List CompoundTarget) : Expr → Result CompoundTarget
  | .column c => .ofOption (.fusedTarget c.index) targets[c.index]?
  | e => do .fail (.notAColumn (← e.text))

/-- An expression with the sources in place of the columns of a node. A source that computes
something may itself refer to the node, so it is treated likewise; a source that is a leaf stands as
it is. What needs more than the given depth is given up. -/
def inlineSources (id : NodeId) (sources : List Expr) : Nat → Expr → Result Expr
  | 0 => fun _ => .fail .endlessSources
  | depth + 1 =>
    Expr.mapLeavesM fun
      | .column c =>
        if c.source = id then do
          let source ← .ofOption (.fusedSource c.index) sources[c.index]?
          if source.isLeaf then return source else inlineSources id sources depth source
        else .ok (.column c)
      | l => .ok (.leaf l)

/-- Takes in a filter. -/
def addFilter (f : Fusion) (id : NodeId) (condition : Expr) : Result Fusion := do
  Result.ensure f.compound.filter.isNone .manyFilters
  return { f with
    compound := { f.compound with filter := some condition }
    filterNode := some id }

/-- Takes in the expressions of the first projection. -/
def addSources (f : Fusion) (exprs : List Expr) : Fusion :=
  { f with
    compound := { f.compound with
      sources := exprs
      targets := (List.range exprs.length).map .source }
    projected := true }

/-- Takes in one expression of a later projection: gives its target, the state being the
sources. No source stands inside of itself in an expression that has an end, so there are no more
levels than sources; without an end the replacement goes on until the stack is used up. -/
def addTarget (targets : List CompoundTarget) (last : NodeId) (e : Expr) :
    StateT (List Expr) Result CompoundTarget := do
  if e.isColumn then targetOf targets e
  else
    let sources ← get
    let source ← inlineSources last sources (sources.length + 1) e
    set (sources ++ [source])
    return .source sources.length

/-- Takes in the expressions of a later projection. -/
def addTargets (f : Fusion) (j : Project) : Result Fusion := do
  let c := f.compound
  if j.isSimple then
    return { f with compound := { c with targets := ← j.exprs.mapM (targetOf c.targets) } }
  else
    let last ← Result.required "node preceding project" f.lastNode
    let (targets, sources) ← (j.exprs.mapM (addTarget c.targets last)).run c.sources
    return { f with compound := { c with sources := sources, targets := targets } }

/-- Takes in an aggregate: its keys are supplied values behind the sources. -/
def addAggregate (f : Fusion) (a : Aggregate) : Result Fusion := do
  let c := f.compound
  let sources := c.sources.length
  Result.ensure (a.groupCount ≤ sources) (.groupCountTooLarge a.groupCount sources)
  let keys := List.range a.groupCount
  return { f with compound := { c with
    isAggregate := true
    fields := a.fields
    calls := a.calls
    groupCount := a.groupCount
    sources := c.sources ++ keys.map fun k => Expr.supplied (k + 1)
    targets := (keys.map fun k => .source (sources + k)) ++
      (List.range a.calls.length).map .call } }

end Fusion

namespace Plan

/-- The expressions of a projection over a filter that is evaluated on the fly: references to
the filter become references to its input. -/
def readThroughFilter (p : Plan) (filter : NodeId) (exprs : List Expr) : Result (List Expr) := do
  let columns ← p.output (← (p.node filter).singleInput)
  exprs.mapM <| Expr.mapColumnsM fun c =>
    if c.source = filter then .ofOption (.filterInputColumn c.index) columns[c.index]?
    else .ok c

/-- Takes in a projection. -/
def fuseProject (p : Plan) (f : Fusion) (id : NodeId) (j : Project) : Result Fusion := do
  let f := { f with compound := { f.compound with fields := j.fields, target := j.target } }
  if f.projected then f.addTargets j
  else
    let input ← (p.node id).singleInput
    if f.filterNode = some input then
      return f.addSources (← p.readThroughFilter input j.exprs)
    else return f.addSources j.exprs

/-- Takes in the next node of a chain. -/
def fuseNode (p : Plan) (f : Fusion) (id : NodeId) : Result Fusion := do
  let f ← match p.op id with
    | .filter g => f.addFilter id g.condition
    | .project j => p.fuseProject f id j
    | .aggregate a => f.addAggregate a
    | op => .fail (.unfusable op.name)
  return { f with lastNode := some id }

/-- The compound that stands for a chain. -/
def fuseChain (p : Plan) (chain : List NodeId) : Result Compound := do
  return (← chain.foldlM p.fuseNode .start).compound

end Plan

end QueryPlan
