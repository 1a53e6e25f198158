import QueryPlan.Proofs.Explain.Entries
import QueryPlan.Proofs.Flattening.Step
import QueryPlan.Proofs.LiveOrder.Insertion
import QueryPlan.Proofs.Scope.Pipeline
/-!
# QueryPlan.Proofs.LiveOrder.Pipeline

**Every node stays behind its inputs, and nothing reads the root.** Each pass leads from an ordered
plan to an ordered one (`Pass.ordered`), whatever its operators and expressions are. The last node
of an ordered plan is read by none, so the two checks of the root refuse no plan that was read from
a document: optimizing gives what it gives without the check (`Ordered.optimize_eq`), and a finished
plan is never refused because of its root (`Ordered.validate_ne_consumedRoot`).
-/

namespace QueryPlan

open List Plan

variable {p q : Plan} {next next' : Nat}

namespace Plan

theorem fuseChains_ordered {joinRoots : List NodeId} (h : p.Ordered p.order)
    (hq : p.fuseChains joinRoots next = .ok (q, next')) : q.Ordered q.order :=
  (fuseChains_induct (I := fun _ => True) (fun _ _ _ _ _ _ _ _ _ _ _ _ _ _ => trivial) h trivial
    hq).1

theorem flattenJoins_ordered (h : p.Ordered p.order)
    (hq : p.flattenJoins next = .ok (q, next')) : q.Ordered q.order := by
  refine Fresh.foldlM_keeps (motive := fun r => r.Ordered r.order) hq h
    fun root _ r s _ _ hr hstep => ?_
  split at hstep
  · next hlive =>
    have hroot : root ∈ r.order := contains_iff_mem.mp hlive
    obtain ⟨f⟩ := hr.flattening hroot hstep
    exact f.ordered hr hroot
  · exact (Fresh.pure_eq_ok.mp hstep).1 ▸ hr

end Plan

/-- Every pass keeps every node behind its inputs. -/
theorem Pass.ordered {pass : Pass} (h : p.Ordered p.order)
    (hq : pass.apply p next = .ok (q, next')) : q.Ordered q.order := by
  cases pass with
  | markNops => exact markNops_ordered h (Fresh.lift_eq_ok.mp hq).1
  | simplifySorts => exact simplifySorts_ordered h (Fresh.lift_eq_ok.mp hq).1
  | eliminateCopies => exact eliminateCopies_ordered h (Fresh.lift_eq_ok.mp hq).1
  | foldFilters => exact foldFilters_ordered h (Fresh.lift_eq_ok.mp hq).1
  | hoistConditions => exact hoistConditions_ordered h (Fresh.lift_eq_ok.mp hq).1
  | eliminateDeadColumns => exact eliminateDeadColumns_ordered h (Fresh.lift_eq_ok.mp hq).1
  | separateWindows => exact separateWindows_ordered h hq
  | narrowWindows => exact narrowWindows_ordered h hq
  | fuseChains joinRoots => exact fuseChains_ordered h hq
  | flattenJoins => exact flattenJoins_ordered h hq

namespace Plan

theorem Ordered.applyPasses {passes : List Pass} (h : p.Ordered p.order)
    (hq : p.applyPasses passes next = .ok (q, next')) : q.Ordered q.order :=
  Fresh.foldlM_keeps (motive := fun r => r.Ordered r.order) hq h
    fun _ _ _ _ _ _ hr hs => Pass.ordered hr hs

/-! ### The root -/

theorem Ordered.checkRoot_eq_ok (h : p.Ordered p.order) : p.checkRoot = .ok () := by
  unfold checkRoot
  split
  · next root hroot => exact Result.ensureQuoting_eq_ok.mpr (beq_iff_eq.mpr (h.useCount_root hroot))
  · rfl

/-- All passes, without the check of the root. -/
def optimizeUnchecked (settings : Settings) (p : Plan) : Fresh Plan := do
  let p ← p.applyPasses [.markNops, .simplifySorts, .eliminateCopies, .foldFilters]
  let p ← p.applyPasses (p.middlePasses settings)
  p.applyPasses [.flattenJoins]

/-- The check of the root refuses no ordered plan. -/
theorem Ordered.optimize_eq (h : p.Ordered p.order) (settings : Settings) (next : Nat) :
    p.optimize settings next = p.optimizeUnchecked settings next := by
  refine Fresh.bind_congr fun r n hr => Fresh.bind_congr fun s m hs => ?_
  have hcheck := ((h.applyPasses hr).applyPasses hs).checkRoot_eq_ok
  change ((liftM s.checkRoot : Fresh Unit) >>= fun _ => _) m = _
  rw [hcheck]
  rfl

/-- Optimizing an ordered plan keeps every node behind its inputs. -/
theorem Ordered.optimize {settings : Settings} (h : p.Ordered p.order)
    (hq : p.optimize settings next = .ok (q, next')) : q.Ordered q.order := by
  rw [h.optimize_eq] at hq
  obtain ⟨r, n, hr, hq⟩ := Fresh.bind_eq_ok.mp hq
  obtain ⟨s, n, hs, hq⟩ := Fresh.bind_eq_ok.mp hq
  exact ((h.applyPasses hr).applyPasses hs).applyPasses hq

/-- An ordered plan is not refused because something reads its root. -/
theorem Ordered.validate_ne_consumedRoot (h : p.Ordered p.order) {e : Error}
    (he : p.validate = .error e) (text : String) : e.cause ≠ .consumedRoot text := by
  unfold validate at he
  split at he
  · cases he
  · next root hroot =>
    rcases Result.bind_eq_error.mp he with he | ⟨_, -, he⟩
    · have hread := (Result.ensureQuoting_eq_error.mp he).1
      rw [h.useCount_root hroot] at hread
      cases hread
    · obtain ⟨id, -, he⟩ := Result.forM_eq_error he
      obtain ⟨expr, -, he⟩ := Result.forM_eq_error he
      rcases Result.bind_eq_error.mp he with he | ⟨_, -, he⟩
      · rcases (Result.ensureQuoting_eq_error.mp he).2 with he | ⟨_, hcause, rfl⟩
        · rw [Result.FailsOnly.bind (Node.text_failsOnly _)
            (fun _ => .bind (Expr.text_failsOnly _) fun _ => .pure) e he]
          nofun
        · obtain ⟨_, -, hcause⟩ := Result.bind_eq_ok.mp hcause
          obtain ⟨_, -, hcause⟩ := Result.bind_eq_ok.mp hcause
          rw [← Result.pure_eq_ok.mp hcause]
          nofun
      · obtain ⟨c, -, he⟩ := Result.forM_eq_error he
        rcases (Result.ensureQuoting_eq_error.mp he).2 with he | ⟨_, hcause, rfl⟩
        · rw [Result.FailsOnly.bind (Node.text_failsOnly _) (fun _ => .pure) e he]
          nofun
        · obtain ⟨_, -, hcause⟩ := Result.bind_eq_ok.mp hcause
          rw [← Result.pure_eq_ok.mp hcause]
          nofun

/-! ### Plans of documents -/

/-- The plan of a document is ordered, and so is the bound plan. -/
theorem ordered_of_document {env : Environment} {nested : Expr.PlanBuilder} {j : Json}
    {s s' : BuildState}
    (hp : Plan.ofDocument env (Expr.ofDocument nested) j s = .ok (p, s'))
    (hq : q = p ∨ p.bind = .ok q) : q.Ordered q.order := by
  have hunbound := ofDocument_unbound (Expr.ofDocument_columns nested) j s p s' hp
  rcases hq with rfl | hq
  · exact hunbound.arranged.toOrdered
  · exact (hunbound.bind_wellFormed hq).1.arranged.toOrdered

end Plan

/-- **Live order.** Every pass, and all of them together, lead from a plan with every node behind
its inputs to another one. So nothing reads the root of a plan of a document, and no such plan is
refused for that, neither before the joins are flattened nor when it is finished. -/
theorem live_order_kept :
    (∀ (pass : Pass) (p q : Plan) (next next' : Nat), p.Ordered p.order →
      pass.apply p next = .ok (q, next') → q.Ordered q.order) ∧
    (∀ (settings : Settings) (p q : Plan) (next next' : Nat), p.Ordered p.order →
      p.optimize settings next = .ok (q, next') → q.Ordered q.order) ∧
    (∀ (env : Environment) (nested : Expr.PlanBuilder) (j : Json) (s s' : BuildState) (p q : Plan),
      Plan.ofDocument env (Expr.ofDocument nested) j s = .ok (p, s') →
      q = p ∨ p.bind = .ok q →
      ∀ (settings : Settings) (next : Nat),
        q.optimize settings next = q.optimizeUnchecked settings next ∧
        ∀ r, (r = q ∨ ∃ next', q.optimize settings next = .ok (r, next')) →
          (∀ root, r.root? = some root → r.useCount root = 0) ∧
          ∀ e text, r.validate = .error e → e.cause ≠ .consumedRoot text) := by
  refine ⟨fun _ _ _ _ _ => Pass.ordered, fun _ _ _ _ _ h => h.optimize, ?_⟩
  intro env nested j s s' p q hp hq settings next
  have hordered := ordered_of_document hp hq
  refine ⟨hordered.optimize_eq settings next, fun r hr => ?_⟩
  have hr : r.Ordered r.order := by
    rcases hr with rfl | ⟨next', hr⟩
    · exact hordered
    · exact hordered.optimize hr
  exact ⟨fun root => hr.useCount_root, fun e text he => hr.validate_ne_consumedRoot he text⟩

/-- A filter below a projection is read, bound and optimized, which leaves two nodes. -/
theorem live_order_kept_filteredRows :
    ∃ j s p q r next, Plan.ofDocument default
        (Expr.ofDocument (Plan.subqueryOfDocument default)) j .start = .ok (p, s) ∧
      p.bind = .ok q ∧ q.optimize .standard 3 = .ok (r, next) ∧ r.order.length = 2 ∧
      r.Ordered r.order ∧ q.optimizeUnchecked .standard 3 = .ok (r, next) ∧
      (∀ root, r.root? = some root → r.useCount root = 0) ∧
      (∀ e text, r.validate = .error e → e.cause ≠ .consumedRoot text) ∧
      ∃ t n, Pass.apply (.fuseChains []) q 3 = .ok (t, n) ∧ t.Ordered t.order := by
  have hrun : (Query.unoptimizedOfText default filteredRows >>= fun query =>
      query.plan.optimize .standard 3 >>= fun r =>
        Pass.apply (.fuseChains []) query.plan 3 >>= fun t => pure (r, t)).holds
          (·.1.1.order.length == 2) = true := by
    rw [Query.unoptimizedOfText, Query.documentOfText, Json.ofText, Json.ofText?, filteredRows,
      Query.textOf, Json.Written.ofTextWithin?, String.toList_ofList]
    decide +kernel
  obtain ⟨_, hrun, hlength⟩ := Result.holds_eq_true.mp hrun
  obtain ⟨query, hquery, hrun⟩ := Result.bind_eq_ok.mp hrun
  obtain ⟨⟨r, next⟩, hr, hrun⟩ := Result.bind_eq_ok.mp hrun
  obtain ⟨⟨t, n⟩, ht, hrun⟩ := Result.bind_eq_ok.mp hrun
  cases Result.pure_eq_ok.mp hrun
  obtain ⟨document, last, -, hbound⟩ := Query.unoptimizedOfText_eq_ok hquery
  obtain ⟨j, s₀, hj, hbound⟩ := Build.bind_eq_ok.mp hbound
  obtain ⟨-, rfl⟩ := Build.lift_eq_ok.mp hj
  obtain ⟨p, s, hp, hbound⟩ := Build.bind_eq_ok.mp hbound
  obtain ⟨_, s₁, hlive, hbound⟩ := Build.bind_eq_ok.mp hbound
  have hbind := (Build.lift_eq_ok.mp hbound).1
  have hordered := ordered_of_document hp (.inr hbind)
  obtain ⟨hunchecked, hroot⟩ := live_order_kept.2.2 _ _ _ _ _ _ _ hp (.inr hbind) .standard 3
  obtain ⟨hunread, haccepted⟩ := hroot r (.inr ⟨next, hr⟩)
  exact ⟨j, s, p, query.plan, r, next, hp, hbind, hr, beq_iff_eq.mp hlength,
    live_order_kept.2.1 _ _ _ _ _ hordered hr, hunchecked ▸ hr, hunread, haccepted, t, n, ht,
    live_order_kept.1 _ _ _ _ _ hordered ht⟩

end QueryPlan
