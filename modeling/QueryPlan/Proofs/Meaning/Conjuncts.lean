import QueryPlan.Proofs.Meaning.Expr
/-!
# QueryPlan.Proofs.Meaning.Conjuncts

**Taking a condition apart and putting it together loses nothing.** Passes move conditions between
nodes as lists of conjuncts. Of a condition that is taken apart (`Expr.conjuncts`) no part is an
`AND` any more, and the parts are together as true as the condition was. Conditions that are put
together (`Expr.all?`) are taken apart into the parts of each, in order. There are conditions
without any part, such as an `AND` of nothing: they are true, and nothing is put together from them.
-/

namespace QueryPlan

open List

/-- **Conjunctions are taken apart and put together without loss.** No conjunct of an expression is
an `AND`, they have the leaves of the expression, in order, and putting them together and taking
that apart gives them again. Expressions are put together unless there are none, and are then taken
apart into the conjuncts of each. And wherever `AND` is the conjunction of three-valued logic, at
every row, an expression has the truth value of the conjunction of its conjuncts, and expressions
that are put together have that of their conjunction. -/
theorem Expr.conjuncts_lossless :
    (∀ e : Expr,
      (∀ d ∈ e.conjuncts, ∀ type args, d ≠ .app (.operator .and type) args) ∧
      e.conjuncts.flatMap leaves = e.leaves ∧
      ∀ d, all? e.conjuncts = some d → d.conjuncts = e.conjuncts) ∧
    (∀ es : List Expr,
      (all? es = none ↔ es = []) ∧
      ∀ e, all? es = some e → e.conjuncts = es.flatMap conjuncts) ∧
    ∀ (V : Type) (M : Meaning V), M.Conjoins → ∀ (envs : List (Env V)) (i : Nat),
      (∀ e, M.truth (M.eval envs e i) =
        Truth.conjunction (e.conjuncts.map fun d => M.truth (M.eval envs d i))) ∧
      ∀ es e, all? es = some e → M.truth (M.eval envs e i) =
        Truth.conjunction (es.map fun d => M.truth (M.eval envs d i)) := by
  refine ⟨fun e => ⟨fun d => ne_and_of_mem_conjuncts, leaves_conjuncts e, fun d hall => ?_⟩,
    fun es => ⟨all?_eq_none_iff, fun e => conjuncts_of_all?⟩, fun V M hM envs i => ?_⟩
  · exact conjuncts_of_all?_conjuncts hall fun _ => conjuncts_of_mem_conjuncts
  · exact ⟨hM.truth_eval_eq_conjunction envs i, fun es e => hM.truth_eval_all? envs i⟩

/-- Conditions in an `AND` between one of nothing and one of an `AND` of a single condition. -/
def Expr.nestedAnds : Expr :=
  let and (args : List Expr) : Expr := .app (.operator .and SqlType.condition) args
  and [.column ⟨⟨0⟩, 0⟩, and [], and [and [.column ⟨⟨0⟩, 1⟩]], .column ⟨⟨0⟩, 0⟩]

/-- Three conditions stay, one of them twice, and together they are as true as the whole. -/
theorem Expr.conjuncts_lossless_nestedAnds :
    nestedAnds.conjuncts = [.column ⟨⟨0⟩, 0⟩, .column ⟨⟨0⟩, 1⟩, .column ⟨⟨0⟩, 0⟩] ∧
    Meaning.ofTruthValues.Conjoins ∧
    ∀ env, Meaning.ofTruthValues.truthAt env nestedAnds =
      Truth.both (env.column ⟨⟨0⟩, 0⟩)
        (Truth.both (env.column ⟨⟨0⟩, 1⟩) (Truth.both (env.column ⟨⟨0⟩, 0⟩) (some true))) := by
  have hM := Meaning.ofTruthValues_logical.conjoins
  obtain ⟨-, -, htruth⟩ := conjuncts_lossless
  refine ⟨rfl, hM, fun env => ?_⟩
  exact (htruth _ _ hM [env] 0).1 nestedAnds

end QueryPlan
