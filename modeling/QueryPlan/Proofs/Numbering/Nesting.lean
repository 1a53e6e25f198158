import QueryPlan.Proofs.Numbering.Reading
import QueryPlan.Query
/-!
# QueryPlan.Proofs.Numbering.Nesting

**A subquery is built like the plan around it.** The recursion that builds subqueries is bounded by
the depth of the document. The bound never cuts anything off: a build only asks for the documents
nested in its own (`Plan.boundOfDocument_congr`), and these are less deep. So there is one equation
for the plan of a subquery, without a bound in it (`Plan.subqueryOfDocument_eq`), and what it
finishes is what is finished for the outermost document (`Query.ofDocument_eq`).
-/

namespace QueryPlan

open List

/-- Loops agree if their steps agree at every element. -/
theorem Build.foldlM_congr {σ α : Type} {f g : σ → α → Build σ} {as : List α}
    (h : ∀ a ∈ as, ∀ s, f s a = g s a) (s : σ) : as.foldlM f s = as.foldlM g s := by
  induction as generalizing s with
  | nil => rfl
  | cons a as ih =>
      rw [foldlM_cons, foldlM_cons, h a mem_cons_self s]
      exact congrArg (g s a >>= ·) (funext fun t => ih (fun b hb => h b (mem_cons_of_mem _ hb)) t)

namespace Plan

variable {env : Environment} {b b' : Expr.PlanBuilder} {j d : Json}

theorem addNode_congr (p : Plan) (h : ∀ d ∈ Relation.nestedDocuments j, b d = b' d) :
    Relation.addNode env (Expr.ofDocument b) p j = Relation.addNode env (Expr.ofDocument b') p j := by
  unfold Relation.addNode
  rw [(Relation.nodeOf_reads env p j).congr b b' h]

/-- A build only asks for the plans of the documents nested in its own. -/
theorem boundOfDocument_congr (h : ∀ d ∈ nestedDocuments j, b d = b' d) :
    boundOfDocument env b j = boundOfDocument env b' j := by
  have hrels : ∀ {rels : Json}, j.field "rels" = .ok rels →
      Plan.ofDocument env (Expr.ofDocument b) rels = Plan.ofDocument env (Expr.ofDocument b') rels := by
    intro rels hrels
    funext s
    unfold Plan.ofDocument
    refine Result.bind_congr fun r hr => ?_
    obtain ⟨hks, -⟩ := Build.lift_eq_ok.mp (show (liftM rels.asList : Build _) s = .ok (r.1, r.2) from hr)
    refine congrFun (Build.foldlM_congr (fun k hk p => addNode_congr p fun d hd => h d ?_) _) r.2
    rw [nestedDocuments, Json.elementsOf_of_field hrels hks]
    exact mem_flatMap.mpr ⟨k, hk, hd⟩
  funext s
  unfold boundOfDocument
  refine Result.bind_congr fun r hr => ?_
  obtain ⟨hfield, -⟩ :=
    Build.lift_eq_ok.mp (show (liftM (j.field "rels") : Build _) s = .ok (r.1, r.2) from hr)
  dsimp only
  rw [hrels hfield]

/-- Any bound above the depth of the document will do. -/
theorem subqueryWithin_congr {n m : Nat} (hn : d.depth < n) (hm : d.depth < m) :
    subqueryWithin env n d = subqueryWithin env m d := by
  induction n generalizing m d with
  | zero => exact absurd hn (Nat.not_lt_zero _)
  | succ n ih =>
      obtain ⟨m, rfl⟩ := Nat.exists_eq_succ_of_ne_zero (Nat.ne_zero_of_lt hm)
      simp only [subqueryWithin]
      rw [boundOfDocument_congr fun d' hd' => ?_]
      have hless := depth_lt_of_mem_nested hd'
      exact ih (by omega) (by omega)

/-- The optimized and checked plan of a document. -/
def finishedOfDocument (env : Environment) (j : Json) : Build Plan := do
  let p ← boundOfDocument env (subqueryOfDocument env) j
  p.finish env

/-- The plan of a subquery is that of its document, kept for the expression that shows it. Nothing is
registered with it. -/
theorem subqueryOfDocument_eq (env : Environment) (d : Json) :
    subqueryOfDocument env d =
      finishedOfDocument env d >>= fun p => Build.finishSubquery (.ofPlan p) := by
  rw [subqueryOfDocument, subqueryWithin, finishedOfDocument, bind_assoc]
  rw [boundOfDocument_congr fun d' hd' => ?_]
  exact subqueryWithin_congr (depth_lt_of_mem_nested hd') (Nat.lt_succ_self _)

end Plan

/-- The optimized query of a document has the finished plan. -/
theorem Query.ofDocument_eq (env : Environment) (j : Json) :
    Query.ofDocument env j = Query.ofBuild (Plan.finishedOfDocument env j) := rfl

end QueryPlan
