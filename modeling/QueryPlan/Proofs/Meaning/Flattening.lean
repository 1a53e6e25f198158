import QueryPlan.Proofs.Flattening.Success
import QueryPlan.Proofs.Meaning.Joins
/-!
# QueryPlan.Proofs.Meaning.Flattening

**Flattening a chain of joins keeps the meaning.** The new node has the rows of the node whose place
it takes, and every other node that is left has the rows it had (`Plan.flattening_keeps_rows`). The
inputs of the chain have to be distinct: references tell equal inputs of a left-deep join no more
apart than those of a join.
-/

namespace QueryPlan

open List

namespace Plan

variable {V : Type} [DecidableEq V] {M : Meaning V} {p q : Plan} {root : NodeId}

/-- The node at the top of the chain has the rows of the flattened inputs for which the condition
of the new node is true. -/
theorem NewNode.rows_top (f : NewNode p root) (hM : M.Logical) (hp : p.WellFormed)
    (hroot : root ∈ p.order) (hjoin : p.isBinaryJoin f.topJoin = true)
    (hdistinct : f.inputs.Nodup) {levels : ChainLevels} (hlevels : f.MadeOf levels) :
    p.rows M f.top = M.filtered f.columns f.op.condition
      (M.chained f.columns f.op (p.rows M f.leftmost) (p.levelInputs M levels.inputs)) := by
  have hapart := f.apart hp hroot hdistinct hlevels
  have hchain := hlevels.leveled.rows_eq hapart hp hM (f.topJoin_mem hp hroot) (fun _ hx => hx)
    (prefix_refl _) (j := f.op) (hlevels.kinds_eq ▸ prefix_rfl)
    (hlevels.outer_eq ▸ prefix_rfl)
  have hcondition : ∀ row, M.holds (M.env f.columns row) f.op.condition =
      chainHolds M f.joins f.columns (p.chainConjuncts f.filter levels) row := by
    intro row
    rw [hlevels.condition_eq, Meaning.holds_moved, hM.holds_all?_filter]
    rfl
  rw [Meaning.filtered, filter_congr fun row _ => hcondition row]
  cases hfilter : f.filter with
  | none =>
      rw [top, hfilter, Option.getD_none, hchain]
      simp [chainConjuncts]
  | some above =>
      obtain ⟨rfl, hop, hinputs, -⟩ := f.chain.of_filter hfilter
      -- The condition of the filter is about the columns of the topmost join as well.
      have hordered := hp.arranged.toOrdered
      have htopJoin : (p.op f.topJoin).isJoin = true := isJoin_of_isBinaryJoin hjoin
      obtain ⟨g, hg⟩ := isFilter_iff.mp hop
      have hreads : p.reads above = p.inputs f.topJoin := by
        rw [reads_of_input (by rw [hg]; rfl) hinputs,
          exposed_of_join htopJoin]
      have hfiltered : p.rows M above = (p.rows M f.topJoin).filter fun row =>
          M.holds (chainEnv M f.joins f.columns row) g.condition := by
        rw [hordered.rows_eq hroot, hg, hreads, hinputs]
        refine filter_congr fun row _ => Meaning.holds_congr rfl fun c hc => ?_
        have hcolumn : c ∈ (p.op above).columns := by
          rw [hg]
          exact Operator.mem_columns.mpr ⟨_, mem_singleton_self _, hc⟩
        have hsource := hp.reads_of_mem hroot hcolumn
        rw [hreads] at hsource
        exact congrArg (M.cell row) (f.idxOf_topJoin hp hroot hjoin hdistinct c
          (mem_columnsOf.mpr hsource)).symm
      rw [top, hfilter, Option.getD_some, hfiltered, hchain, filter_filter]
      refine filter_congr fun row _ => ?_
      rw [hM.conjoins.holds_eq_all, chainConjuncts, Option.toList_some, flatMap_singleton, filterConjuncts,
        hg, chainHolds, chainHolds, all_append, Bool.and_comm]

/-- What is left has the rows it had, and the new node those of the top. -/
theorem Flattening.rows_eq (f : Flattening p root q) (hM : M.Logical) (hp : p.WellFormed)
    (hroot : root ∈ p.order) (hjoin : p.isBinaryJoin f.topJoin = true)
    (hdistinct : f.inputs.Nodup) :
    ∀ x ∈ q.order, q.rows M x = if x = p.nextId then p.rows M f.top else p.rows M x := by
  have hordered := hp.arranged.toOrdered
  refine (f.ordered hordered hroot).rows_unique fun x hx => ?_
  have hnew : ∀ i ∈ p.order, i ≠ p.nextId := fun i hi => Plan.ne_nextId (hp.inArena hi)
  by_cases hx' : x = p.nextId
  · obtain ⟨levels, hlevels⟩ := f.exists_madeOf hp hroot hjoin
    have hlive := f.inputs_subset hp hroot
    have hinputs : q.inputs p.nextId = f.leftmost :: levels.inputs :=
      (f.inputs_nextId hordered).trans hlevels.inputs_eq
    rw [hlevels.inputs_eq] at hlive
    have hcount : ∀ i ∈ f.leftmost :: levels.inputs, q.columnCount i = p.columnCount i :=
      fun i hi => f.columnCount_eq hp hroot hjoin (hlive hi)
    have hcolumns : q.columnsOf (f.leftmost :: levels.inputs) = f.columns := by
      rw [NewNode.columns, hlevels.inputs_eq, columnsOf, columnsOf]
      exact flatMap_congr fun i hi => by rw [hcount i hi]
    rw [hx', if_pos rfl, f.rows_top hM hp hroot hjoin hdistinct hlevels, f.op_nextId hp hroot,
      reads_of_join (by rw [f.op_nextId hp hroot]; rfl), hinputs, hcolumns,
      Meaning.node_leftDeepJoin, if_neg (hnew _ (hlive mem_cons_self))]
    refine congrArg (fun inputs => M.filtered _ _ (M.chained _ _ _ inputs))
      (map_congr_left fun i hi => ?_)
    rw [hcount i (mem_cons_of_mem _ hi), if_neg (hnew i (hlive (mem_cons_of_mem _ hi)))]
  · have hleft : x ∈ f.pre ++ f.post ∧ x ∉ f.below := f.mem_of_mem_result hp hroot hx hx'
    have hlive : ∀ i ∈ p.inputs x, i ∈ p.order := fun i hi =>
      hordered.mem_of_input (f.mem_order.mpr (.inr hleft.1)) hi
    have hwidths : (q.inputs x).map q.columnCount = (p.inputs x).map p.columnCount := by
      rw [f.inputs_eq hordered hleft.1, map_map]
      exact map_congr_left fun i hi => f.columnCount_replaced hp hroot hjoin (hlive i hi)
    have hinputs : (q.inputs x).map (fun i => if i = p.nextId then p.rows M f.top else p.rows M i) =
        (p.inputs x).map (p.rows M) := by
      rw [f.inputs_eq hordered hleft.1, map_map]
      refine map_congr_left fun i hi => ?_
      by_cases htop : i = f.top
      · simp [htop, NodeId.replaced_self]
      · simp [NodeId.replaced_of_ne _ htop, hnew i (hlive i hi)]
    rw [if_neg hx', hordered.rows_eq (f.mem_order.mpr (.inr hleft.1)), hwidths, hinputs,
      f.op_eq hp hroot hjoin hleft.1 hleft.2]
    exact (Meaning.node_mapColumns (fun c hc =>
      f.idxOf_movedColumn hp hroot hjoin hleft.1 hleft.2 hc hdistinct) _ _).symm

/-- Flattening a chain with a join at its top succeeds. The new node takes the place of the filter
that the chain takes in, or else of the topmost join, and has its rows if the flattened inputs are
distinct. Besides, nodes only leave, and those that are left have the rows they had.

A condition is a property of a single row: a window function in one sees that row and no other
(`Meaning.truthAt`). -/
theorem flattening_keeps_rows (hM : M.Logical) (hp : p.WellFormed) (hroot : root ∈ p.order)
    {filter : Option NodeId} {topJoin : NodeId} (htop : p.chainTop root = .ok (filter, topJoin))
    (hjoin : p.isBinaryJoin topJoin = true) (next : Nat) :
    ∃ q j, p.flattenAt root next = .ok (q, next + 1) ∧ q.op p.nextId = .leftDeepJoin j ∧
      (∃ pre post gone : List NodeId, p.order = pre ++ filter.getD topJoin :: post ∧
        q.order = pre.filter (· ∉ gone) ++ p.nextId :: post) ∧
      ((q.inputs p.nextId).Nodup → q.rows M p.nextId = p.rows M (filter.getD topJoin) ∧
        ∀ x ∈ q.order, x ≠ p.nextId → q.rows M x = p.rows M x) := by
  have hordered := hp.arranged.toOrdered
  obtain ⟨q, hq⟩ := hp.flattenAt_ok hroot htop hjoin next
  obtain ⟨f⟩ := hordered.flattening hroot hq
  obtain ⟨rfl, rfl⟩ : f.filter = filter ∧ f.topJoin = topJoin := by
    simpa using f.chain.top.symm.trans htop
  refine ⟨q, f.op, hq, f.op_nextId hp hroot, ⟨f.pre, f.post, f.below, f.order_eq,
    f.order_result hordered hroot⟩, fun hdistinct => ?_⟩
  rw [f.inputs_nextId hordered] at hdistinct
  have hrows := f.rows_eq hM hp hroot hjoin hdistinct
  have hnew : p.nextId ∈ q.order := by simp [f.order_result hordered hroot]
  exact ⟨(hrows _ hnew).trans (if_pos rfl), fun x hx hne => (hrows x hx).trans (if_neg hne)⟩

/-- The flattened node reads the three relations and has the only row of the filter. -/
theorem flattening_keeps_rows_chainOfThree :
    ∃ q, chainOfThree.flattenAt ⟨5⟩ 6 = .ok (q, 7) ∧ q.inputs ⟨6⟩ = [⟨0⟩, ⟨1⟩, ⟨2⟩] ∧
      q.rows .ofTruthValues ⟨6⟩ = [[some true, some true, some true]] := by
  have hroot : ⟨5⟩ ∈ chainOfThree.order := by decide
  have htop : chainOfThree.chainTop ⟨5⟩ = .ok (some ⟨5⟩, ⟨4⟩) := by decide +kernel
  have hrun : (chainOfThree.flattenAt ⟨5⟩ 6).holds
      (fun s => s.1.inputs ⟨6⟩ == [⟨0⟩, ⟨1⟩, ⟨2⟩]) = true := by decide +kernel
  obtain ⟨q, j, hq, -, -, hrows⟩ := flattening_keeps_rows Meaning.ofTruthValues_logical
    chainOfThree_wellFormed hroot htop (by decide) 6
  rw [hq] at hrun
  have hinputs : q.inputs ⟨6⟩ = [⟨0⟩, ⟨1⟩, ⟨2⟩] := eq_of_beq hrun
  refine ⟨q, hq, hinputs, (hrows ?_).1.trans (by decide +kernel)⟩
  exact (congrArg Nodup hinputs).mpr (by decide)

end Plan

end QueryPlan
