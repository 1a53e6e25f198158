import QueryPlan.Pass.Pipeline
import QueryPlan.Proofs.Flattening.Retirement
import QueryPlan.Proofs.Numbering.Growth
import QueryPlan.Proofs.Scope.ChainWalk
import QueryPlan.Proofs.Scope.Removal
import QueryPlan.Proofs.Scope.Windows
/-!
# QueryPlan.Proofs.Numbering.Passes

**Every pass grows the arena.** A pass numbers the nodes that it makes in turn and shows no
subquery that was not there (`Plan.Grows`). That needs no invariant of the plan: what a new node
computes is taken from nodes of the arena, whichever they are.
-/

namespace QueryPlan

open List

/-! ### Compounds -/

namespace Fusion

variable {p : Plan} {id last : NodeId} {f g : Fusion} {shown : List Subquery}

/-- The compound so far shows no other subqueries than the given ones. -/
def Shows (f : Fusion) (shown : List Subquery) : Prop :=
  (Operator.compound f.compound).subqueries ⊆ shown

theorem shows_iff : f.Shows shown ↔ (∀ e ∈ f.compound.filter, e.subqueries ⊆ shown) ∧
    f.compound.sources.flatMap Expr.subqueries ⊆ shown := by
  rw [Shows, Operator.subqueries, Operator.exprs, flatMap_append, append_subset]
  cases f.compound.filter <;> simp

/-- What is inlined shows what the expression and the sources show. -/
theorem subqueries_inlineSources {sources : List Expr} {depth : Nat} {e e' : Expr}
    (hsources : sources.flatMap Expr.subqueries ⊆ shown) (he : e.subqueries ⊆ shown)
    (h : inlineSources last sources depth e = .ok e') : e'.subqueries ⊆ shown := by
  induction depth generalizing e e' with
  | zero => cases h
  | succ depth ih =>
      intro x hx
      obtain ⟨l, hl, d, hd, hx⟩ := Expr.exists_of_mem_subqueries_mapLeavesM h hx
      split at hd
      · split at hd
        · obtain ⟨s, hs, hd⟩ := Result.bind_eq_ok.mp hd
          have hsource : s.subqueries ⊆ shown := fun x hx => hsources
            (mem_flatMap.mpr ⟨s, mem_of_getElem? (Result.ofOption_eq_ok.mp hs), hx⟩)
          split at hd
          · exact hsource (Result.pure_eq_ok.mp hd ▸ hx)
          · exact ih hsource hd hx
        · obtain rfl := Except.ok.inj hd
          cases hx
      · obtain rfl := Except.ok.inj hd
        exact he (Expr.mem_subqueries.mpr ⟨l, hl, by simpa using hx⟩)

/-- The sources that a later projection adds show what it and the sources before show. -/
theorem subqueries_addTarget {targets ts : List CompoundTarget} {es sources sources' : List Expr}
    (hsources : sources.flatMap Expr.subqueries ⊆ shown)
    (hes : es.flatMap Expr.subqueries ⊆ shown)
    (h : (es.mapM (addTarget targets last)).run sources = .ok (ts, sources')) :
    sources'.flatMap Expr.subqueries ⊆ shown := by
  refine (addTarget_mapM_induct (motive := fun s => s.flatMap Expr.subqueries ⊆ shown) hsources
    (fun e he old source hold hinline => ?_) h).2
  rw [flatMap_append, flatMap_singleton, append_subset]
  exact ⟨hold, subqueries_inlineSources hold
    (fun x hx => hes (mem_flatMap.mpr ⟨e, he, hx⟩)) hinline⟩

theorem Shows.addAggregate {a : Aggregate} (hg : g.Shows shown) (h : g.addAggregate a = .ok f) :
    f.Shows shown := by
  obtain ⟨-, -, h⟩ := Result.bind_eq_ok.mp h
  obtain rfl := Result.pure_eq_ok.mp h
  obtain ⟨hfilter, hsources⟩ := shows_iff.mp hg
  refine shows_iff.mpr ⟨hfilter, ?_⟩
  rw [flatMap_append, append_subset]
  refine ⟨hsources, fun x hx => ?_⟩
  obtain ⟨e, he, hx⟩ := mem_flatMap.mp hx
  obtain ⟨k, -, rfl⟩ := mem_map.mp he
  cases hx

theorem Shows.addFilter {condition : Expr} (hg : g.Shows shown)
    (hcondition : condition.subqueries ⊆ shown) (h : g.addFilter id condition = .ok f) :
    f.Shows shown := by
  obtain ⟨-, -, h⟩ := Result.bind_eq_ok.mp h
  obtain rfl := Result.pure_eq_ok.mp h
  refine shows_iff.mpr ⟨fun e he => ?_, (shows_iff.mp hg).2⟩
  rw [← Option.some.inj he]
  exact hcondition

theorem Shows.fuseProject {j : Project} (hg : g.Shows shown)
    (hj : j.exprs.flatMap Expr.subqueries ⊆ shown) (h : p.fuseProject g id j = .ok f) :
    f.Shows shown := by
  obtain ⟨hfilter, hsources⟩ := shows_iff.mp hg
  rcases Plan.fuseProject_cases h with
    ⟨-, targets, sources, ⟨rfl, -⟩ | ⟨last, -, hrun⟩, rfl⟩ |
      ⟨-, exprs, rfl | ⟨filter, hexprs⟩, rfl⟩
  · exact shows_iff.mpr ⟨hfilter, hsources⟩
  · exact shows_iff.mpr ⟨hfilter, subqueries_addTarget hsources hj hrun⟩
  · exact shows_iff.mpr ⟨hfilter, hj⟩
  · obtain ⟨i, -, hexprs⟩ := Result.bind_eq_ok.mp hexprs
    obtain ⟨columns, -, hexprs⟩ := Result.bind_eq_ok.mp hexprs
    refine shows_iff.mpr ⟨hfilter, ?_⟩
    rw [show (addSources _ exprs).compound.sources = exprs from rfl,
      Expr.subqueries_mapM_mapColumnsM hexprs]
    exact hj

/-- A compound shows what the nodes of its chain show. -/
theorem Shows.fuseNode (hg : g.Shows p.subqueries) (h : p.fuseNode g id = .ok f) :
    f.Shows p.subqueries := by
  obtain ⟨k, hk, rfl⟩ := Plan.fuseNode_eq_ok.mp h
  suffices hshows : k.Shows p.subqueries from hshows
  have hop := p.subqueries_op_subset id
  split at hk
  · next c hfilter =>
    rw [hfilter, Operator.subqueries, Operator.exprs, flatMap_singleton] at hop
    exact hg.addFilter hop hk
  · next j hproject =>
    rw [hproject] at hop
    exact hg.fuseProject hop hk
  · exact hg.addAggregate hk
  · cases hk

end Fusion

namespace Plan

variable {p q : Plan} {id : NodeId} {next next' n : Nat}

namespace Grows

/-! ### Passes that take nodes out -/

theorem markNop (h : p.markNop id = .ok q) (n : Nat) : p.Grows n q n := by
  rcases markNop_cases h with rfl | ⟨a, -, rfl⟩
  · exact .refl _ n
  · exact (refl p n).setOp (nil_subset _)

theorem simplifySorts (h : p.simplifySorts = .ok q) (n : Nat) : p.Grows n q n := by
  obtain ⟨s, hs, h⟩ := Result.bind_eq_ok.mp h
  obtain rfl := Result.pure_eq_ok.mp h
  refine Result.foldlM_keeps (motive := fun s => p.Grows n s.1 n) hs (.refl p n) ?_
  rintro id - ⟨r, earlier⟩ ⟨r', later⟩ hr hstep
  rcases simplifySort_cases hstep with ⟨rfl, -⟩ | ⟨e, -, -, hbypass, -⟩
  · exact hr
  · exact hr.trans (bypass hbypass n)

theorem eliminateCopy {root : Option NodeId} (h : p.eliminateCopy root id = .ok q) (n : Nat) :
    p.Grows n q n := by
  rcases eliminateCopy_cases h with rfl | ⟨j, -, -, -, hbypass⟩
  · exact .refl _ n
  · exact bypass hbypass n

theorem mergeCondition {condition : Expr} (h : p.Grows next q n)
    (hcondition : condition.subqueries ⊆ p.subqueries) :
    p.Grows next (q.mergeCondition id condition) n := by
  unfold Plan.mergeCondition
  split
  · next f hop =>
    refine h.setOp ?_
    have hf : f.condition.subqueries ⊆ p.subqueries := by
      have hsub := h.subqueries_op id
      rwa [hop, Operator.subqueries, Operator.exprs, flatMap_singleton] at hsub
    rw [Operator.subqueries, Operator.exprs, flatMap_singleton, Filter.prepend]
    cases hall : Expr.all? (condition.conjuncts ++ f.condition.conjuncts) with
    | none => exact hf
    | some e =>
        rw [Option.getD_some, Expr.subqueries_of_all? hall, flatMap_append,
          Expr.subqueries_conjuncts, Expr.subqueries_conjuncts]
        exact append_subset.mpr ⟨hcondition, hf⟩
  · exact h

theorem foldFilter (h : p.foldFilter id = .ok q) (n : Nat) : p.Grows n q n := by
  rcases foldFilter_cases h with rfl | ⟨f, inner, g, input, r, -, -, hinner, -, -, hr, rfl⟩
  · exact .refl _ n
  · have hcondition := p.subqueries_op_subset inner
    rw [hinner, Operator.subqueries, Operator.exprs, flatMap_singleton] at hcondition
    exact ((replaceInput hr n).mergeCondition hcondition).withArena rfl

/-- A condition with the leaves of a filter shows what the filter shows. -/
theorem subqueries_of_filter {f : Filter} (hop : p.op id = .filter f) {e : Expr}
    (he : e.leaves ⊆ f.condition.leaves) : e.subqueries ⊆ p.subqueries := by
  have hsub := p.subqueries_op_subset id
  rw [hop, Operator.subqueries, Operator.exprs] at hsub
  refine Subset.trans (Expr.subqueries_subset_of_leaves ?_) hsub
  rwa [flatMap_singleton]

theorem hoistCondition (h : p.hoistCondition id = .ok q) (n : Nat) : p.Grows n q n := by
  rcases hoistCondition_cases h with
    rfl | ⟨f, joinId, j, condition, hop, -, -, -, hcondition, h⟩
  · exact .refl _ n
  · have hjoin : p.Grows n (p.setOp joinId (.join { j with condition := condition })) n := by
      refine (refl p n).setOp ?_
      rw [Operator.subqueries, Operator.exprs, flatMap_singleton]
      exact subqueries_of_filter hop hcondition
    rcases h with ⟨remaining, hremaining, rfl⟩ | hbypass
    · refine hjoin.setOp ?_
      rw [Operator.subqueries, Operator.exprs, flatMap_singleton]
      exact subqueries_of_filter hop hremaining
    · exact hjoin.trans (bypass hbypass n)

theorem remapWithin {fuel oldWidth : Nat} {mapping : ColumnMap}
    (h : Plan.remapWithin fuel p id mapping oldWidth = .ok q) (n : Nat) : p.Grows n q n := by
  induction fuel generalizing p q id mapping oldWidth with
  | zero => cases h
  | succ fuel ih =>
      obtain ⟨r, hr, h⟩ := Result.bind_eq_ok.mp h
      refine (foldlM hr fun s a t hstep => replaceInput hstep n).trans
        (foldlM h fun s a t hstep => ?_)
      split at hstep
      · exact ih hstep
      · exact ih hstep
      · obtain ⟨m, -, hstep⟩ := Result.bind_eq_ok.mp hstep
        exact ih hstep
      · exact Result.pure_eq_ok.mp hstep ▸ .refl s n

theorem dropDeadColumns {root : Option NodeId} (h : p.dropDeadColumns root id = .ok q) (n : Nat) :
    p.Grows n q n := by
  unfold Plan.dropDeadColumns at h
  split at h
  · next j hop =>
    dsimp only at h
    split at h
    · exact Except.ok.inj h ▸ .refl p n
    · obtain ⟨used, -, h⟩ := Result.bind_eq_ok.mp h
      split at h
      · exact Result.pure_eq_ok.mp h ▸ .refl p n
      · split at h
        · exact Result.pure_eq_ok.mp h ▸ .refl p n
        · refine ((refl p n).setOp ?_).trans (remapWithin h n)
          refine Subset.trans (fun x hx => ?_) (hop ▸ p.subqueries_op_subset id)
          obtain ⟨e, he, hx⟩ := Operator.mem_subqueries.mp hx
          obtain ⟨i, -, hi⟩ := mem_filterMap.mp he
          exact Operator.mem_subqueries.mpr ⟨e, mem_of_getElem? hi, hx⟩
  · exact Except.ok.inj h ▸ .refl p n

/-! ### Passes over window functions -/

theorem insertBefore {inputs : List NodeId} {op : Operator} (h : p.Grows next q n)
    (hop : op.subqueries ⊆ p.subqueries) {r : Plan}
    (hr : q.insertBefore id (.make n inputs op) = .ok r) : p.Grows next r (n + 1) := by
  obtain ⟨pre, post, -, rfl⟩ := insertBefore_eq_ok hr
  exact (h.alloc hop).withArena rfl

theorem insertAfter {inputs : List NodeId} {op : Operator} (h : p.Grows next q n)
    (hop : op.subqueries ⊆ p.subqueries) {r : Plan}
    (hr : q.insertAfter id (.make n inputs op) = .ok r) : p.Grows next r (n + 1) := by
  obtain ⟨pre, post, -, rfl⟩ := insertAfter_eq_ok hr
  exact (h.alloc hop).withArena rfl

/-- A step that leaves the plan alone. -/
theorem unchanged (h : (pure p : Fresh Plan) next = .ok (q, next')) : p.Grows next q next' := by
  obtain ⟨rfl, rfl⟩ := Fresh.pure_eq_ok.mp h
  exact .refl p next

theorem narrowWindow (h : p.narrowWindow id next = .ok (q, next')) : p.Grows next q next' := by
  unfold Plan.narrowWindow at h
  cases hop : p.op id with
  | project j =>
      rw [hop] at h
      dsimp only at h
      split at h
      · exact unchanged h
      · obtain ⟨input, n, hinput, h⟩ := Fresh.bind_eq_ok.mp h
        obtain ⟨-, rfl⟩ := Fresh.lift_eq_ok.mp hinput
        split at h
        · exact unchanged h
        · obtain ⟨w, n, hw, h⟩ := Fresh.bind_eq_ok.mp h
          obtain ⟨-, rfl⟩ := Fresh.lift_eq_ok.mp hw
          split at h
          · exact unchanged h
          · obtain ⟨buildId, n, hid, h⟩ := Fresh.bind_eq_ok.mp h
            obtain ⟨rfl, rfl⟩ := Fresh.freshId_eq_ok.mp hid
            obtain ⟨r, n, hinsert, h⟩ := Fresh.bind_eq_ok.mp h
            obtain ⟨hr, rfl⟩ := Fresh.lift_eq_ok.mp hinsert
            obtain ⟨hq, rfl⟩ := Fresh.lift_eq_ok.mp h
            refine (insertBefore (refl p next) (fun x hx => ?_) hr).trans (replaceInput hq _)
            obtain ⟨e, he, hx⟩ := Operator.mem_subqueries.mp hx
            obtain ⟨i, -, rfl⟩ := mem_map.mp he
            cases hx
  | _ =>
      rw [hop] at h
      exact unchanged h

theorem separateWindow (h : p.separateWindow id next = .ok (q, next')) : p.Grows next q next' := by
  unfold Plan.separateWindow at h
  cases hop : p.op id with
  | project j =>
      rw [hop] at h
      dsimp only at h
      split at h
      · exact unchanged h
      · have hj : j.exprs.flatMap Expr.subqueries ⊆ p.subqueries := by
          have hsub := p.subqueries_op_subset id
          rwa [hop] at hsub
        obtain ⟨buildId, n, hid, h⟩ := Fresh.bind_eq_ok.mp h
        obtain ⟨rfl, rfl⟩ := Fresh.freshId_eq_ok.mp hid
        obtain ⟨r, n, hinsert, h⟩ := Fresh.bind_eq_ok.mp h
        obtain ⟨hr, rfl⟩ := Fresh.lift_eq_ok.mp hinsert
        obtain ⟨hq, rfl⟩ := Fresh.lift_eq_ok.mp h
        have hlower : p.Grows next (p.setOp id (.project (p.lowerHalf id j))) next := by
          refine (refl p next).setOp ?_
          rw [Operator.subqueries, Operator.exprs, lowerHalf, flatMap_append, append_subset]
          refine ⟨Subset.trans (Expr.subqueries_splitWindows j.exprs 0).1 hj, fun x hx => ?_⟩
          obtain ⟨e, he, hx⟩ := mem_flatMap.mp hx
          obtain ⟨c, -, rfl⟩ := mem_map.mp he
          cases hx
        exact (insertAfter hlower (Subset.trans (Expr.subqueries_splitUpper j.exprs) hj) hr).trans
          (replaceInputEverywhere hq _)
  | _ =>
      rw [hop] at h
      exact unchanged h

/-! ### Chains -/

theorem replaceInOrder {old new : NodeId} (h : p.Grows next q n) {r : Plan}
    (hr : q.replaceInOrder old new = .ok r) : p.Grows next r n := by
  obtain ⟨pre, post, -, rfl⟩ := replaceInOrder_eq_ok hr
  exact h.withArena rfl

theorem foldl_remove (h : p.Grows next q n) (ids : List NodeId) :
    p.Grows next (ids.foldl Plan.remove q) n := by
  induction ids generalizing q with
  | nil => exact h
  | cons id ids ih => exact ih (h.withArena rfl)

theorem replaceChain {chain : List NodeId} {first last : NodeId}
    (h : p.replaceChain chain first last next = .ok (q, next')) : p.Grows next q next' := by
  obtain ⟨compound, n, hcompound, h⟩ := Fresh.bind_eq_ok.mp h
  obtain ⟨hfuse, rfl⟩ := Fresh.lift_eq_ok.mp hcompound
  obtain ⟨f, hf, hfuse⟩ := Result.bind_eq_ok.mp hfuse
  obtain rfl := Result.pure_eq_ok.mp hfuse
  obtain ⟨input, n, hinput, h⟩ := Fresh.bind_eq_ok.mp h
  obtain ⟨-, rfl⟩ := Fresh.lift_eq_ok.mp hinput
  obtain ⟨buildId, n, hid, h⟩ := Fresh.bind_eq_ok.mp h
  obtain ⟨rfl, rfl⟩ := Fresh.freshId_eq_ok.mp hid
  obtain ⟨r, n, hreplace, h⟩ := Fresh.bind_eq_ok.mp h
  obtain ⟨hr, rfl⟩ := Fresh.lift_eq_ok.mp hreplace
  obtain ⟨hq, rfl⟩ := Fresh.lift_eq_ok.mp h
  have hshows : f.Shows p.subqueries :=
    Result.foldlM_keeps (motive := fun f => f.Shows p.subqueries) hf (nil_subset _)
      fun id _ f g hg hstep => hg.fuseNode hstep
  exact ((((refl p next).alloc hshows).replaceInOrder hr).foldl_remove _).trans
    (replaceInputEverywhere hq _)

/-- Fusing the chain of a walk replaces a chain of its plan, or changes nothing. -/
theorem fuse {w w' : ChainWalk} (h : w.fuse next = .ok (w', next')) :
    w.plan.Grows next w'.plan next' := by
  obtain ⟨_, n, hcount, h⟩ := Fresh.bind_eq_ok.mp h
  obtain ⟨-, rfl⟩ := Fresh.lift_eq_ok.mp hcount
  obtain ⟨ids, n, hids, h⟩ := Fresh.bind_eq_ok.mp h
  obtain ⟨-, rfl⟩ := Fresh.mapM_lift.mp hids
  have hstays : (pure w : Fresh ChainWalk) next = .ok (w', next') →
      w.plan.Grows next w'.plan next' := by
    intro hpure
    obtain ⟨rfl, rfl⟩ := Fresh.pure_eq_ok.mp hpure
    exact .refl _ next
  cases ids with
  | nil => exact hstays h
  | cons first rest =>
      cases hlast : (first :: rest).getLast? with
      | none =>
          rw [hlast] at h
          exact hstays h
      | some last =>
          cases hplace : w.chain.getLast? with
          | none =>
              rw [hlast, hplace] at h
              exact hstays h
          | some place =>
              rw [hlast, hplace] at h
              obtain ⟨plan, n, hplan, h⟩ := Fresh.bind_eq_ok.mp h
              obtain ⟨rfl, rfl⟩ := Fresh.pure_eq_ok.mp h
              exact replaceChain hplan

theorem step {joinRoots : List NodeId} {w w' : ChainWalk}
    (h : w.step joinRoots next = .ok (w', next')) : w.plan.Grows next w'.plan next' := by
  obtain ⟨visited, hvisit⟩ := w.visit_eq
  have hplan : w.visit.plan = w.plan := by rw [hvisit]
  rcases w.step_cases joinRoots with
    ⟨found, -, heq⟩ | ⟨-, ⟨-, heq⟩ | ⟨-, heq⟩ | ⟨u, hcloses, heq⟩⟩ <;> rw [heq] at h
  · obtain ⟨rfl, rfl⟩ := Fresh.pure_eq_ok.mp h
    exact hplan ▸ .refl _ next
  · obtain ⟨rfl, rfl⟩ := Fresh.pure_eq_ok.mp h
    exact hplan ▸ .refl _ next
  · obtain ⟨rfl, rfl⟩ := Fresh.pure_eq_ok.mp h
    exact hplan ▸ .refl _ next
  · obtain ⟨fused, n, hfused, h⟩ := Fresh.bind_eq_ok.mp h
    obtain ⟨rfl, rfl⟩ := Fresh.pure_eq_ok.mp h
    have hu : u.plan = w.plan := by cases hcloses <;> exact hplan
    have hgrows := fuse hfused
    rwa [hu] at hgrows

theorem run {joinRoots : List NodeId} {w w' : ChainWalk} {fuel : Nat}
    (h : w.run joinRoots fuel next = .ok (w', next')) : w.plan.Grows next w'.plan next' := by
  induction fuel generalizing w next with
  | zero =>
      obtain ⟨rfl, rfl⟩ := Fresh.pure_eq_ok.mp h
      exact .refl _ next
  | succ fuel ih =>
      rw [ChainWalk.run] at h
      split at h
      · obtain ⟨rfl, rfl⟩ := Fresh.pure_eq_ok.mp h
        exact .refl _ next
      · obtain ⟨v, n, hstep, h⟩ := Fresh.bind_eq_ok.mp h
        exact (step hstep).trans (ih h)

theorem fuseChains {joinRoots : List NodeId} (h : p.fuseChains joinRoots next = .ok (q, next')) :
    p.Grows next q next' := by
  obtain ⟨w, n, hrun, h⟩ := Fresh.bind_eq_ok.mp h
  obtain ⟨v, n', hfinish, h⟩ := Fresh.bind_eq_ok.mp h
  obtain ⟨rfl, rfl⟩ := Fresh.pure_eq_ok.mp h
  refine (run hrun).trans ?_
  unfold ChainWalk.finish at hfinish
  cases hstage : w.stage with
  | projected | grouped =>
      rw [hstage] at hfinish
      dsimp only at hfinish
      split at hfinish
      · exact fuse hfinish
      · obtain ⟨rfl, rfl⟩ := Fresh.pure_eq_ok.mp hfinish
        exact .refl _ n
  | start | filtered =>
      rw [hstage] at hfinish
      obtain ⟨rfl, rfl⟩ := Fresh.pure_eq_ok.mp hfinish
      exact .refl _ n

/-! ### Chains of joins -/

/-- The conditions at the levels of a chain of joins show what nodes of the arena show. -/
theorem subqueries_levels {joins : List NodeId} {levels : ChainLevels}
    (h : joins.foldlM p.addLevel .none = .ok levels) :
    levels.conjuncts.flatMap Expr.subqueries ⊆ p.subqueries ∧
      ∀ o ∈ levels.outer, ∀ e ∈ o, e.subqueries ⊆ p.subqueries := by
  refine Result.foldlM_keeps (motive := fun l =>
    l.conjuncts.flatMap Expr.subqueries ⊆ p.subqueries ∧
      ∀ o ∈ l.outer, ∀ e ∈ o, e.subqueries ⊆ p.subqueries) h ⟨nil_subset _, nofun⟩ ?_
  rintro id - l l' ⟨hconjuncts, houter⟩ hstep
  unfold addLevel at hstep
  split at hstep
  · next j hop =>
    obtain ⟨input, -, hstep⟩ := Result.bind_eq_ok.mp hstep
    obtain rfl := Result.pure_eq_ok.mp hstep
    have hj : j.condition.subqueries ⊆ p.subqueries := by
      have hsub := p.subqueries_op_subset id
      rwa [hop, Operator.subqueries, Operator.exprs, flatMap_singleton] at hsub
    unfold ChainLevels.push
    cases j.kind with
    | inner =>
        refine ⟨?_, fun o ho e he => ?_⟩
        · rw [flatMap_append, Expr.subqueries_conjuncts, append_subset]
          exact ⟨hconjuncts, hj⟩
        · rcases mem_append.mp ho with ho | ho
          · exact houter o ho e he
          · rw [mem_singleton.mp ho] at he
            cases he
    | left =>
        refine ⟨by simpa using hconjuncts, fun o ho e he => ?_⟩
        rcases mem_append.mp ho with ho | ho
        · exact houter o ho e he
        · rw [mem_singleton.mp ho] at he
          exact Option.some.inj he ▸ hj
  · exact Except.ok.inj hstep ▸ ⟨hconjuncts, houter⟩

/-- The node for a chain of joins shows what nodes of the arena show. -/
theorem subqueries_flattenChain {filter : Option NodeId} {joins inputs : List NodeId}
    {leftmost : NodeId} {op : LeftDeepJoin}
    (h : p.flattenChain filter joins leftmost = .ok (inputs, op)) :
    (Operator.leftDeepJoin op).subqueries ⊆ p.subqueries := by
  obtain ⟨levels, hlevels, h⟩ := Result.bind_eq_ok.mp h
  obtain ⟨columns, -, h⟩ := Result.bind_eq_ok.mp h
  obtain ⟨condition, hcondition, h⟩ := Result.bind_eq_ok.mp h
  obtain ⟨outer, houter, h⟩ := Result.bind_eq_ok.mp h
  cases Result.pure_eq_ok.mp h
  obtain ⟨hconjuncts, hlevelsOuter⟩ := subqueries_levels hlevels
  have hfilter : (filter.toList.flatMap p.filterConjuncts).flatMap Expr.subqueries ⊆
      p.subqueries := by
    rw [flatMap_assoc]
    intro x hx
    obtain ⟨id, -, hx⟩ := mem_flatMap.mp hx
    unfold filterConjuncts at hx
    split at hx
    · next f hop =>
      rw [Expr.subqueries_conjuncts] at hx
      exact subqueries_of_filter hop (Subset.refl _) hx
    · cases hx
  intro x hshown
  obtain ⟨e, he, hx⟩ := Operator.mem_subqueries.mp hshown
  rcases mem_cons.mp he with rfl | he
  · rw [Expr.subqueries_mapColumnsM hcondition] at hx
    cases hall : Expr.all? ((levels.conjuncts ++ filter.toList.flatMap p.filterConjuncts).filter
        fun e => !e.isTrue) with
    | none =>
        rw [hall] at hx
        cases hx
    | some e =>
        rw [hall, Option.getD_some, Expr.subqueries_of_all? hall] at hx
        obtain ⟨d, hd, hx⟩ := mem_flatMap.mp hx
        rcases mem_append.mp (mem_of_mem_filter hd) with hd | hd
        · exact hconjuncts (mem_flatMap.mpr ⟨d, hd, hx⟩)
        · exact hfilter (mem_flatMap.mpr ⟨d, hd, hx⟩)
  · obtain ⟨o, ho, rfl⟩ := mem_filterMap.mp he
    obtain ⟨o', ho', hmap⟩ := Result.mapM_mem_right houter ho
    cases o' with
    | none => cases hmap
    | some e' =>
        obtain ⟨d, hd, hmap⟩ := Result.bind_eq_ok.mp hmap
        cases Result.pure_eq_ok.mp hmap
        rw [Expr.subqueries_mapColumnsM hd] at hx
        exact hlevelsOuter _ ho' e' rfl hx

theorem redirectAll (except : NodeId) (old : List NodeId) (new : NodeId) (n : Nat) :
    p.Grows n (p.redirectAll except old new) n := by
  rw [redirectAll_eq]
  generalize p.order.filter (fun n => n != except) = nodes
  suffices ∀ r, p.Grows n r n → p.Grows n (nodes.foldl (fun p n => p.setOp n
      ((p.op n).mapExprs (Expr.mapColumns (redirectedColumn old new)))) r) n from this p (refl p n)
  intro r hr
  induction nodes generalizing r with
  | nil => exact hr
  | cons a nodes ih =>
      refine ih _ (hr.setOp ?_)
      rw [Operator.subqueries_mapColumns]
      exact hr.subqueries_op a

theorem flattenAt {root : NodeId} (h : p.flattenAt root next = .ok (q, next')) :
    p.Grows next q next' := by
  obtain ⟨⟨filter, topJoin⟩, n, htop, h⟩ := Fresh.bind_eq_ok.mp h
  obtain ⟨-, rfl⟩ := Fresh.lift_eq_ok.mp htop
  obtain ⟨⟨joins, leftmost⟩, n, hchain, h⟩ := Fresh.bind_eq_ok.mp h
  obtain ⟨-, rfl⟩ := Fresh.lift_eq_ok.mp hchain
  obtain ⟨⟨inputs, op⟩, n, hflatten, h⟩ := Fresh.bind_eq_ok.mp h
  obtain ⟨hop, rfl⟩ := Fresh.lift_eq_ok.mp hflatten
  obtain ⟨buildId, n, hid, h⟩ := Fresh.bind_eq_ok.mp h
  obtain ⟨rfl, rfl⟩ := Fresh.freshId_eq_ok.mp hid
  obtain ⟨r, n, hreplace, h⟩ := Fresh.bind_eq_ok.mp h
  obtain ⟨hr, rfl⟩ := Fresh.lift_eq_ok.mp hreplace
  obtain ⟨hq, rfl⟩ := Fresh.lift_eq_ok.mp h
  have hnew := ((refl p next).alloc (subqueries_flattenChain hop)).replaceInOrder hr
  refine (hnew.trans (redirectAll _ _ _ _)).trans (foldlM hq fun s old t hstep => ?_)
  obtain ⟨u, hu, hstep⟩ := Result.bind_eq_ok.mp hstep
  obtain rfl := Result.pure_eq_ok.mp hstep
  split
  · exact replaceInputEverywhere hu _
  · exact (replaceInputEverywhere hu _).withArena rfl

end Grows

end Plan

/-- Every pass numbers the nodes that it makes in turn. -/
theorem Pass.grows {pass : Pass} {p q : Plan} {next next' : Nat}
    (h : pass.apply p next = .ok (q, next')) : p.Grows next q next' := by
  have hlift : ∀ {x : Result Plan}, (liftM x : Fresh Plan) next = .ok (q, next') →
      (x = .ok q → p.Grows next q next) → p.Grows next q next' := by
    intro x hlift hgrows
    obtain ⟨hx, rfl⟩ := Fresh.lift_eq_ok.mp hlift
    exact hgrows hx
  cases pass with
  | markNops => exact hlift h fun h => .foldlM h fun _ _ _ hstep => .markNop hstep next
  | simplifySorts => exact hlift h fun h => .simplifySorts h next
  | eliminateCopies => exact hlift h fun h => .foldlM h fun _ _ _ hstep => .eliminateCopy hstep next
  | foldFilters => exact hlift h fun h => .foldlM h fun _ _ _ hstep => .foldFilter hstep next
  | hoistConditions => exact hlift h fun h => .foldlM h fun _ _ _ hstep => .hoistCondition hstep next
  | eliminateDeadColumns =>
      exact hlift h fun h => .foldlM h fun _ _ _ hstep => .dropDeadColumns hstep next
  | separateWindows => exact .foldlM_fresh h fun _ _ _ _ _ hstep => .separateWindow hstep
  | narrowWindows => exact .foldlM_fresh h fun _ _ _ _ _ hstep => .narrowWindow hstep
  | fuseChains joinRoots => exact .fuseChains h
  | flattenJoins =>
      refine .foldlM_fresh h fun r root r' n n' hstep => ?_
      split at hstep
      · exact .flattenAt hstep
      · obtain ⟨rfl, rfl⟩ := Fresh.pure_eq_ok.mp hstep
        exact .refl r n

namespace Plan.Grows

variable {p q : Plan} {next next' : Nat}

theorem applyPasses {passes : List Pass} (h : p.applyPasses passes next = .ok (q, next')) :
    p.Grows next q next' :=
  foldlM_fresh h fun _ _ _ _ _ hstep => Pass.grows hstep

/-- The optimization of a plan numbers the nodes that it makes in turn. -/
theorem optimize {settings : Settings} (h : p.optimize settings next = .ok (q, next')) :
    p.Grows next q next' := by
  obtain ⟨r, n, hr, h⟩ := Fresh.bind_eq_ok.mp h
  obtain ⟨s, m, hs, h⟩ := Fresh.bind_eq_ok.mp h
  obtain ⟨_, l, hcheck, h⟩ := Fresh.bind_eq_ok.mp h
  obtain ⟨-, rfl⟩ := Fresh.lift_eq_ok.mp hcheck
  exact ((applyPasses hr).trans (applyPasses hs)).trans (applyPasses h)

end Plan.Grows

end QueryPlan
