import QueryPlan.Proofs.Query
import QueryPlan.Proofs.Scope.Binding
import QueryPlan.Proofs.Scope.ChainWalk
import QueryPlan.Proofs.Scope.Pruning
import QueryPlan.Proofs.Scope.Removal
import QueryPlan.Proofs.WindowNarrowing.Step
/-!
# QueryPlan.Proofs.Scope.Pipeline

**References stay in sight, from reading to the last fusion.** The bound plan of a text is
well-formed, and every pass before the flattening of joins keeps a plan well-formed. So the passes
may be applied in any order and any number of times.
-/

namespace QueryPlan

open Plan

variable {p q : Plan} {next next' : Nat}

/-- Every pass but the flattening of joins keeps a plan well-formed. -/
theorem Pass.wellFormed {pass : Pass} (hpass : pass ≠ .flattenJoins) (h : p.WellFormed)
    (hq : pass.apply p next = .ok (q, next')) : q.WellFormed := by
  cases pass with
  | markNops => exact markNops_wellFormed h (Fresh.lift_eq_ok.mp hq).1
  | simplifySorts => exact simplifySorts_wellFormed h (Fresh.lift_eq_ok.mp hq).1
  | eliminateCopies => exact eliminateCopies_wellFormed h (Fresh.lift_eq_ok.mp hq).1
  | foldFilters => exact foldFilters_wellFormed h (Fresh.lift_eq_ok.mp hq).1
  | hoistConditions => exact hoistConditions_wellFormed h (Fresh.lift_eq_ok.mp hq).1
  | eliminateDeadColumns => exact eliminateDeadColumns_wellFormed h (Fresh.lift_eq_ok.mp hq).1
  | separateWindows => exact separateWindows_wellFormed h hq
  | narrowWindows => exact narrowWindows_wellFormed h hq
  | fuseChains joinRoots => exact fuseChains_wellFormed h hq
  | flattenJoins => exact absurd rfl hpass

/-- The passes before the flattening of joins keep a plan well-formed together. -/
theorem Plan.WellFormed.applyPasses {passes : List Pass} (hpasses : .flattenJoins ∉ passes)
    (h : p.WellFormed) (hq : p.applyPasses passes next = .ok (q, next')) : q.WellFormed :=
  Fresh.foldlM_keeps hq h fun pass hpass _ _ _ _ hr hs =>
    pass.wellFormed (fun heq => hpasses (heq ▸ hpass)) hr hs

/-- The bound plan of a text is well-formed. -/
theorem Query.wellFormed_of_unoptimized {env : Environment} {text : String} {query : Query}
    (h : unoptimizedOfText env text = .ok query) : query.plan.WellFormed := by
  obtain ⟨j, next, -, h⟩ := unoptimizedOfText_eq_ok h
  exact (boundOfDocument_wellFormed env _ j _ _ _ h).1

/-- **Scope.** A bound plan is well-formed, and every pass but the flattening of joins leads from a
well-formed plan to a well-formed one. -/
theorem scope_invariant :
    (∀ (env : Environment) (text : String) (query : Query),
      Query.unoptimizedOfText env text = .ok query → query.plan.WellFormed) ∧
    (∀ (pass : Pass) (p q : Plan) (next next' : Nat), pass ≠ .flattenJoins → p.WellFormed →
      pass.apply p next = .ok (q, next') → q.WellFormed) :=
  ⟨fun _ _ _ => Query.wellFormed_of_unoptimized, fun _ _ _ _ _ => Pass.wellFormed⟩

/-- A projection over a filter, which the fusion of chains makes one node. -/
def filteredRows : String := Query.textOf
  ["\x7b\"rels\":[\x7b\"id\":0,\"relOp\":\"LogicalValues\",",
    "\"inputs\":[],\"tuples\":[],\"type\":[",
    "\x7b\"type\":\"BOOLEAN\",\"nullable\":true,", "\"name\":\"a\"\x7d]\x7d,",
    "\x7b\"id\":1,\"relOp\":\"LogicalFilter\",", "\"condition\":\x7b\"input\":0\x7d\x7d,",
    "\x7b\"id\":2,\"relOp\":\"LogicalProject\",", "\"exprs\":[\x7b\"input\":0\x7d],",
    "\"fields\":[\"b\"]\x7d]\x7d"]

/-- The text is read and bound, and the fusion leaves two nodes. -/
theorem scope_invariant_filteredRows :
    ∃ query q next, Query.unoptimizedOfText default filteredRows = .ok query ∧
      Pass.apply (.fuseChains []) query.plan 3 = .ok (q, next) ∧ q.order.length = 2 ∧
      query.plan.WellFormed ∧ q.WellFormed := by
  have hrun : (Query.unoptimizedOfText default filteredRows >>= fun query =>
      Pass.apply (.fuseChains []) query.plan 3).holds (·.1.order.length == 2) = true := by
    rw [Query.unoptimizedOfText, Query.documentOfText, Json.ofText, Json.ofText?, filteredRows,
      Query.textOf, Json.Written.ofTextWithin?, String.toList_ofList]
    decide +kernel
  obtain ⟨⟨q, next⟩, hq, hlength⟩ := Result.holds_eq_true.mp hrun
  obtain ⟨query, hquery, hpass⟩ := Result.bind_eq_ok.mp hq
  have hwf := scope_invariant.1 _ _ _ hquery
  exact ⟨query, q, next, hquery, hpass, beq_iff_eq.mp hlength, hwf,
    scope_invariant.2 (.fuseChains []) _ _ _ _ nofun hwf hpass⟩

end QueryPlan
