import QueryPlan.Proofs.Outcome
import QueryPlan.Query
/-!
# QueryPlan.Proofs.Query

**The plan of a text.** A query is read, bound and, if it is to be optimized, sent through the
passes; its plan is what the build gives (`Query.unoptimizedOfText_eq_ok`,
`Query.ofText_eq_ok`).

Tests give a text in pieces (`Query.textOf`), for the characters of a long string are costly to
find. The check of a finished plan is left out where evaluating it is costly (`unchecked`).
-/

namespace QueryPlan

/-- An environment with nothing to scan, in which finished plans are not checked. -/
def unchecked : Environment := ⟨default, none, { Settings.standard with validate := false }⟩

namespace Query

variable {env : Environment} {text : String} {query : Query}

/-- A text made of pieces. -/
def textOf (pieces : List String) : String := String.ofList (pieces.flatMap String.toList)

/-- The plan of a query and those that are registered with it. -/
def plans (query : Query) : List Plan := query.plan :: query.subqueries.map Query.plan

theorem foldl_register (p : Plan) (registered queries : List Query) :
    queries.foldl register ⟨p, registered⟩ = ⟨p, registered ++ queries⟩ := by
  induction queries generalizing registered with
  | nil => rw [List.foldl_nil, List.append_nil]
  | cons q queries ih =>
      rw [List.foldl_cons, register, ih, List.append_assoc, List.singleton_append]

theorem ofBuild_eq_ok {m : Build Plan} :
    ofBuild m = .ok query ↔ ∃ next, m .start = .ok (query.plan, ⟨next, query.subqueries⟩) := by
  unfold ofBuild
  rw [Result.bind_eq_ok]
  simp only [Result.pure_eq_ok, ofPlan, foldl_register, List.nil_append]
  obtain ⟨plan, subqueries⟩ := query
  constructor
  · rintro ⟨⟨plan, next, subqueries⟩, hm, ⟨⟩⟩
    exact ⟨next, hm⟩
  · rintro ⟨next, hm⟩
    exact ⟨_, hm, rfl⟩

/-- The bound query of a text has the bound plan of its document. -/
theorem unoptimizedOfText_eq_ok (h : unoptimizedOfText env text = .ok query) :
    ∃ j next, documentOfText text = .ok j ∧
      Plan.boundOfDocument env (Plan.subqueryOfDocument env) j .start =
        .ok (query.plan, ⟨next, query.subqueries⟩) := by
  obtain ⟨j, hj, h⟩ := Result.bind_eq_ok.mp h
  obtain ⟨next, h⟩ := ofBuild_eq_ok.mp h
  exact ⟨j, next, hj, h⟩

/-- A plan is finished by the passes and, if it is to be checked, the check. -/
theorem finish_eq_ok {p q : Plan} {s s' : BuildState} :
    p.finish env s = .ok (q, s') ↔
      (∃ next, p.optimize env.settings s.nextId = .ok (q, next) ∧ { s with nextId := next } = s') ∧
        (env.settings.validate = true → q.validate = .ok ()) := by
  unfold Plan.finish
  rw [Build.bind_eq_ok]
  cases env.settings.validate with
  | false =>
      simp only [Bool.false_eq_true, if_false, Build.ofFresh_eq_ok, Build.pure_eq_ok]
      grind
  | true =>
      simp only [if_true, Build.ofFresh_eq_ok, Build.bind_eq_ok, Build.lift_eq_ok,
        Build.pure_eq_ok]
      grind

/-- The optimized query of a text has the bound plan of its document, sent through the passes and
checked, if it is to be checked. -/
theorem ofText_eq_ok_iff : ofText env text = .ok query ↔
    ∃ j bound next next', documentOfText text = .ok j ∧
      Plan.boundOfDocument env (Plan.subqueryOfDocument env) j .start =
        .ok (bound, ⟨next, query.subqueries⟩) ∧
      bound.optimize env.settings next = .ok (query.plan, next') ∧
      (env.settings.validate = true → query.plan.validate = .ok ()) := by
  rw [ofText, Result.bind_eq_ok]
  constructor
  · rintro ⟨j, hj, h⟩
    obtain ⟨last, h⟩ := ofBuild_eq_ok.mp h
    obtain ⟨bound, s, hbound, h⟩ := Build.bind_eq_ok.mp h
    obtain ⟨⟨next', hpasses, hend⟩, hvalid⟩ := finish_eq_ok.mp h
    have hsub : s.subqueries = query.subqueries := congrArg BuildState.subqueries hend
    exact ⟨j, bound, s.nextId, next', hj, hsub ▸ hbound, hpasses, hvalid⟩
  · rintro ⟨j, bound, next, next', hj, hbound, hpasses, hvalid⟩
    refine ⟨j, hj, ofBuild_eq_ok.mpr ⟨next', Build.bind_eq_ok.mpr ⟨bound, _, hbound, ?_⟩⟩⟩
    exact finish_eq_ok.mpr ⟨⟨next', hpasses, rfl⟩, hvalid⟩

/-- The optimized query of a text has the bound plan of its document, sent through the passes. -/
theorem ofText_eq_ok (h : ofText env text = .ok query) :
    ∃ j bound next next', documentOfText text = .ok j ∧
      Plan.boundOfDocument env (Plan.subqueryOfDocument env) j .start =
        .ok (bound, ⟨next, query.subqueries⟩) ∧
      bound.optimize env.settings next = .ok (query.plan, next') := by
  obtain ⟨j, bound, next, next', hj, hbound, hpasses, -⟩ := ofText_eq_ok_iff.mp h
  exact ⟨j, bound, next, next', hj, hbound, hpasses⟩

end Query

end QueryPlan
