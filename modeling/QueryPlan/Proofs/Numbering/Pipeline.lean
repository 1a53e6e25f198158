import QueryPlan.Proofs.Numbering.Building
/-!
# QueryPlan.Proofs.Numbering.Pipeline

**The numbers of a query.** A build numbers its nodes from zero, and all nodes of the query, those of
its subqueries among them, have the numbers up to their count. The list of a query holds every
subquery in the document, each finished before the one around it. The list of a subquery stays empty:
the ones inside of it stand in the list of the query.
-/

namespace QueryPlan

open List

/-- The numbers of all nodes of a query, live or not, those of its subqueries first. -/
def Query.buildIds (query : Query) : List Nat :=
  (query.subqueries.flatMap fun s => s.plan.buildIds) ++ query.plan.buildIds

/-- The number of all nodes of a query, live or not. -/
def Query.nodeCount (query : Query) : Nat :=
  (query.subqueries.map fun s => s.plan.arena.size).sum + query.plan.arena.size

theorem Query.length_buildIds (query : Query) : query.buildIds.length = query.nodeCount := by
  rw [buildIds, nodeCount, length_append, length_flatMap]
  simp [Plan.buildIds]

/-- A subquery of the list was finished when the list was what stands before it, and nothing was
registered with it. -/
theorem Plan.Completes.finished {env : Environment} {docs : List Json}
    {queries before after : List Query} {q : Query} (h : Completes env [] docs queries)
    (hsplit : queries = before ++ q :: after) :
    ∃ d s s', finishedOfDocument env d s = .ok (q.plan, s') ∧ s'.subqueries = before ∧
      q.subqueries = [] := by
  induction h generalizing after with
  | nil => exact absurd hsplit.symm (by simp)
  | @finish docs queries d p s s' _ hp hs ih =>
      rcases eq_nil_or_concat after with rfl | ⟨rest, r, rfl⟩
      · obtain ⟨rfl, hlast⟩ := append_inj' hsplit rfl
        obtain rfl := (cons.inj hlast).1
        exact ⟨d, s, s', hp, hs, rfl⟩
      · have hmiddle : queries ++ [.ofPlan p] = (before ++ q :: rest) ++ [r] := by
          simpa using hsplit
        exact ih (append_inj' hmiddle rfl).1

/-- Every plan of a query, be it that of a subquery, is the optimized plan of a document. -/
theorem Query.optimized {env : Environment} {j : Json} {query : Query}
    (h : Query.ofDocument env j = .ok query) : ∀ p ∈ query.plans,
      ∃ d s bound t next, Plan.boundOfDocument env (Plan.subqueryOfDocument env) d s =
          .ok (bound, t) ∧ bound.optimize env.settings t.nextId = .ok (p, next) := by
  obtain ⟨next, hbuild⟩ := Query.ofBuild_eq_ok.mp h
  have hfinished : ∀ p ∈ query.plans, ∃ d s s', Plan.finishedOfDocument env d s = .ok (p, s') := by
    refine forall_mem_cons.mpr ⟨⟨j, .start, _, hbuild⟩, forall_mem_map.mpr fun q hq => ?_⟩
    obtain ⟨before, after, hsplit⟩ := append_of_mem hq
    obtain ⟨d, s, s', hp, -⟩ := (Plan.finishedOfDocument_raises hbuild).completes.finished hsplit
    exact ⟨d, s, s', hp⟩
  intro p hp
  obtain ⟨d, s, s', hp⟩ := hfinished p hp
  obtain ⟨bound, t, hbound, hp⟩ := Build.bind_eq_ok.mp hp
  obtain ⟨⟨next', hoptimize, -⟩, -⟩ := Query.finish_eq_ok.mp hp
  exact ⟨d, s, bound, t, next', hbound, hoptimize⟩

/-- Every number below the count of all nodes belongs to exactly one node, and in each plan the
numbers go up. The list of the query holds the subqueries in the document, each behind the ones
inside of it, and each was finished when the list was what stands before it. No subquery has anything
in a list of its own. What a subquery shows stands before it in the list of the query, and what the
query shows stands in its list. -/
theorem build_ids_exact {env : Environment} {j : Json} {query : Query}
    (h : Query.ofDocument env j = .ok query) :
    (query.buildIds.Nodup ∧ ∀ n, n ∈ query.buildIds ↔ n < query.nodeCount) ∧
      (∀ p ∈ query.plans, p.buildIds.Pairwise (· < ·)) ∧
      Plan.Completes env [] (Plan.subqueryDocuments j) query.subqueries ∧
      (∀ s ∈ query.subqueries, s.subqueries = []) ∧
      (∀ before s after, query.subqueries = before ++ s :: after →
        ∀ x ∈ s.plan.subqueries, x.RefersTo before) ∧
      ∀ x ∈ query.plan.subqueries, x.RefersTo query.subqueries := by
  obtain ⟨next, hbuild⟩ := Query.ofBuild_eq_ok.mp h
  have hraises := Plan.finishedOfDocument_raises hbuild
  have hids : query.buildIds.Perm (range next) := by
    have hstart : BuildState.start.finishedIds = [] := rfl
    have htaken := hraises.taken
    rwa [hstart, nil_append, BuildState.start, Nat.sub_zero, ← range_eq_range'] at htaken
  have hcount : query.nodeCount = next := by
    rw [← query.length_buildIds, hids.length_eq, length_range]
  refine ⟨⟨hids.nodup_iff.mpr nodup_range, fun n => ?_⟩, ?_, hraises.completes, ?_, ?_,
    hraises.refers⟩
  · rw [hids.mem_iff, mem_range, hcount]
  · refine forall_mem_cons.mpr ⟨hraises.increasing, forall_mem_map.mpr fun q hq => ?_⟩
    obtain ⟨before, after, hsplit⟩ := append_of_mem hq
    obtain ⟨d, s, s', hfinished, -⟩ := hraises.completes.finished hsplit
    exact (Plan.finishedOfDocument_raises hfinished).increasing
  · intro q hq
    obtain ⟨before, after, hsplit⟩ := append_of_mem hq
    obtain ⟨d, s, s', -, -, hnone⟩ := hraises.completes.finished hsplit
    exact hnone
  · intro before q after hsplit
    obtain ⟨d, s, s', hfinished, rfl, -⟩ := hraises.completes.finished hsplit
    exact (Plan.finishedOfDocument_raises hfinished).refers

/-- Rows of a column `a`. -/
def rowsOfA : Json := .object
  [("id", .integer 0), ("relOp", .string "LogicalValues"), ("inputs", .array []),
    ("tuples", .array []), ("type", .array [.object
      [("type", .string "BOOLEAN"), ("nullable", .bool true), ("name", .string "a")]])]

/-- A projection of the rows on which `a` holds to the value of a subquery. -/
def valueOver (subquery : Json) : Json := .object [("rels", .array
  [rowsOfA,
    .object [("id", .integer 1), ("relOp", .string "LogicalFilter"),
      ("condition", .object [("input", .integer 0)])],
    .object [("id", .integer 2), ("relOp", .string "LogicalProject"),
      ("exprs", .array [.object [("op", .string "$SCALAR_QUERY"), ("operands", .array []),
        ("subquery", subquery)]]),
      ("fields", .array [.string "value"])]])]

/-- A subquery inside of a subquery. Each filter is fused with the projection above it, which takes
a number behind those of the subquery in the projection. -/
theorem build_ids_exact_nestedValues :
    ∃ query, Query.ofDocument unchecked
        (valueOver (valueOver (.object [("rels", .array [rowsOfA])]))) = .ok query ∧
      (query.subqueries.map fun s => s.plan.buildIds) = [[4], [2, 3, 5, 6]] ∧
      query.plan.buildIds = [0, 1, 7, 8] ∧ query.buildIds.Nodup ∧
      ∀ s ∈ query.subqueries, s.subqueries = [] := by
  have hrun : (Query.ofDocument unchecked
      (valueOver (valueOver (.object [("rels", .array [rowsOfA])])))).holds (fun query =>
        decide ((query.subqueries.map fun s => s.plan.buildIds) = [[4], [2, 3, 5, 6]] ∧
          query.plan.buildIds = [0, 1, 7, 8])) = true := by
    decide +kernel
  obtain ⟨query, hquery, hids⟩ := Result.holds_eq_true.mp hrun
  obtain ⟨hinner, houter⟩ := of_decide_eq_true hids
  obtain ⟨⟨hnodup, -⟩, -, -, hnone, -⟩ := build_ids_exact hquery
  exact ⟨query, hquery, hinner, houter, hnodup, hnone⟩

end QueryPlan
