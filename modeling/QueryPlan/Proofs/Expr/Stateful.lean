import QueryPlan.Proofs.Expr.Columns
/-!
# QueryPlan.Proofs.Expr.Stateful

**Changes of expressions that carry a state.** Binding carries the position that it failed at,
and the separation of window functions the columns that it forwards. In both the state only moves
up in some order, and what is said of a leaf that was put in place stays true of it when the state
moves on. One step for a leaf then gives the statement for every expression and every list of
expressions (`mapLeavesM_state`, `mapM_state`).
-/

namespace QueryPlan

/-- The states of a change and what is said of the leaves that it puts in place. -/
structure Carried (σ : Type) where
  /-- The states that are met. -/
  State : σ → Prop
  Below : σ → σ → Prop
  /-- What is said of a leaf, given a state that is not below the one that it was put in
  place with. -/
  Leaf : σ → Leaf → Prop
  refl : ∀ s, Below s s
  trans : ∀ {s t u}, Below s t → Below t u → Below s u
  mono : ∀ {s t l}, Below s t → Leaf s l → Leaf t l

namespace Carried

variable {σ : Type}

/-- A step ends in a state further up, and all leaves that it gives are as they should be. -/
def Keeps (k : Carried σ) (leaves : List QueryPlan.Leaf) (s t : σ) : Prop :=
  k.State t ∧ k.Below s t ∧ ∀ l ∈ leaves, k.Leaf t l

theorem Keeps.append {k : Carried σ} {as bs : List QueryPlan.Leaf} {s t u : σ}
    (ha : k.Keeps as s t) (hb : k.Keeps bs t u) : k.Keeps (as ++ bs) s u := by
  refine ⟨hb.1, k.trans ha.2.1 hb.2.1, fun l hl => ?_⟩
  rcases List.mem_append.mp hl with hl | hl
  · exact k.mono hb.2.1 (ha.2.2 l hl)
  · exact hb.2.2 l hl

/-- What each expression of a list keeps, the list keeps. -/
theorem mapM_state (k : Carried σ) {f : Expr → StateM σ Expr} {es : List Expr}
    (step : ∀ e ∈ es, ∀ s, k.State s → k.Keeps ((f e).run s).1.leaves s ((f e).run s).2)
    {s : σ} (hs : k.State s) :
    k.Keeps (((es.mapM f).run s).1.flatMap Expr.leaves) s ((es.mapM f).run s).2 ∧
      ((es.mapM f).run s).1.length = es.length := by
  induction es generalizing s with
  | nil =>
      rw [List.mapM_nil]
      exact ⟨⟨hs, k.refl s, fun l hl => absurd hl List.not_mem_nil⟩, rfl⟩
  | cons e es ih =>
      have hrun : ((e :: es).mapM f).run s =
          (((f e).run s).1 :: ((es.mapM f).run ((f e).run s).2).1,
            ((es.mapM f).run ((f e).run s).2).2) := by
        rw [List.mapM_cons]
        rfl
      rw [hrun]
      have he := step e List.mem_cons_self s hs
      obtain ⟨hes, hlength⟩ := ih (fun e he => step e (List.mem_cons_of_mem _ he)) he.1
      exact ⟨he.append hes, congrArg (· + 1) hlength⟩

/-- What each leaf of an expression keeps, the expression keeps. -/
theorem mapLeavesM_state (k : Carried σ) {f : QueryPlan.Leaf → StateM σ Expr} {e : Expr}
    (step : ∀ l ∈ e.leaves, ∀ s, k.State s → k.Keeps ((f l).run s).1.leaves s ((f l).run s).2)
    {s : σ} (hs : k.State s) :
    k.Keeps ((e.mapLeavesM f).run s).1.leaves s ((e.mapLeavesM f).run s).2 := by
  induction e using Expr.ind generalizing s with
  | leaf l => exact step l (List.mem_singleton_self l) s hs
  | app head args ih =>
      have hrun : ((Expr.app head args).mapLeavesM f).run s =
          (.app head ((args.mapM (Expr.mapLeavesM f)).run s).1,
            ((args.mapM (Expr.mapLeavesM f)).run s).2) := by
        rw [Expr.mapLeavesM_app]
        rfl
      rw [hrun, Expr.leaves_app]
      refine (k.mapM_state (fun e he s hs => ih e he (fun l hl => step l ?_) hs) hs).1
      rw [Expr.leaves_app]
      exact List.mem_flatMap.mpr ⟨e, he, hl⟩

end Carried

end QueryPlan
