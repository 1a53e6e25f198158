import QueryPlan.Explain.Node
import QueryPlan.Pass.ChainFusion
import QueryPlan.Pass.CrossJoins
import QueryPlan.Pass.DeadColumns
import QueryPlan.Pass.FilterFolding
import QueryPlan.Pass.IdentityProjects
import QueryPlan.Pass.JoinChains
import QueryPlan.Pass.NopAggregates
import QueryPlan.Pass.RedundantSorts
import QueryPlan.Pass.WindowNarrowing
import QueryPlan.Pass.WindowSeparation
import QueryPlan.Settings
/-!
# QueryPlan.Pass.Pipeline

**The passes in their order.** Later ones rely on what earlier ones leave behind: fusing expects
window functions in projections of their own, and the flattening of joins comes last because
nothing else looks into a flattened chain.

Filters over joins hold join conditions until the joins are flattened. So the tops of join
chains are found before anything is fused, fusing leaves them alone, and conditions are moved
from filters into joins only if no filter is such a top.
-/

namespace QueryPlan

/-- A change of a bound plan that keeps its meaning. -/
inductive Pass
  | markNops
  | simplifySorts
  | eliminateCopies
  | foldFilters
  | hoistConditions
  | eliminateDeadColumns
  | separateWindows
  | narrowWindows
  /-- Fuses chains, but no filter that is the top of a join chain. -/
  | fuseChains (joinRoots : List NodeId)
  | flattenJoins
  deriving DecidableEq, Repr

/-- Applies a pass. -/
def Pass.apply : Pass → Plan → Fresh Plan
  | markNops, p => p.markNops
  | simplifySorts, p => p.simplifySorts
  | eliminateCopies, p => p.eliminateCopies
  | foldFilters, p => p.foldFilters
  | hoistConditions, p => p.hoistConditions
  | eliminateDeadColumns, p => p.eliminateDeadColumns
  | separateWindows, p => p.separateWindows
  | narrowWindows, p => p.narrowWindows
  | fuseChains joinRoots, p => p.fuseChains joinRoots
  | flattenJoins, p => p.flattenJoins

namespace Plan

/-- Applies passes one after another. -/
def applyPasses (passes : List Pass) (p : Plan) : Fresh Plan :=
  passes.foldlM (fun p pass => pass.apply p) p

/-- Requires that nothing reads the root. -/
def checkRoot (p : Plan) : Result Unit :=
  match p.root? with
  | some root =>
    Result.ensureQuoting (p.useCount root == 0) do
      return .rootConsumedByOthers (← (p.node root).text)
  | none => .ok ()

/-- The passes between the discovery of the tops of join chains and the check of the root. -/
def middlePasses (settings : Settings) (p : Plan) : List Pass :=
  (if p.joinRoots.any p.isFilter then [] else [.hoistConditions]) ++
    [.eliminateDeadColumns, .separateWindows] ++
    (if settings.clusterMode then [.narrowWindows] else []) ++
    [.fuseChains p.joinRoots]

/-- Applies all passes to a bound plan. -/
def optimize (settings : Settings) (p : Plan) : Fresh Plan := do
  let p ← p.applyPasses [.markNops, .simplifySorts, .eliminateCopies, .foldFilters]
  let p ← p.applyPasses (p.middlePasses settings)
  p.checkRoot
  p.applyPasses [.flattenJoins]

end Plan

end QueryPlan
