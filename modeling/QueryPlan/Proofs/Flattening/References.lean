import QueryPlan.Proofs.Flattening.Columns
/-!
# QueryPlan.Proofs.Flattening.References

**What becomes of references when a chain is flattened.** Every node that is left keeps its operator,
with its references moved (`Flattening.op_eq`), and each of them denotes the column at the position
where it was (`Flattening.idxOf_movedColumn`).
-/

namespace QueryPlan

open List

namespace Plan

variable {p q : Plan} {root : NodeId}

namespace Takeover

variable (f : Takeover p root)

section

variable (hp : p.WellFormed) (hroot : root ∈ p.order) (hjoin : p.isBinaryJoin f.topJoin = true)
include hp hroot hjoin

/-- What read the top of the chain reads the new node. -/
theorem redirection : Redirection f.moved f.rewired f.top p.nextId none
    (f.moved.order.filter fun n => n != p.nextId) := by
  have hmoved := f.arranged_moved hp hroot hjoin
  have hordered := hp.arranged.toOrdered
  exact hmoved.redirection_to_next f.redirect_eq (f.nodup_moved hordered)
    (f.inArena_moved hordered)

theorem arranged_rewired : f.rewired.Arranged (f.pre ++ f.top :: p.nextId :: f.post) := by
  have hmoved := f.arranged_moved hp hroot hjoin
  refine (f.redirection hp hroot hjoin).arranged hmoved fun n hn hread => ?_
  obtain ⟨hn, hne⟩ := mem_filter.mp hn
  have hmem : n ∈ f.pre ++ f.top :: p.nextId :: f.post := by
    rw [f.order_moved] at hn
    simp only [mem_append, mem_cons] at hn ⊢
    grind
  exact (pair_next hmoved.nodup rfl (hmoved.before n hmem f.top hread) (bne_iff_ne.mp hne)).2

/-- The new node is as wide as the top, so no node changes its width. -/
theorem columnCount_rewired {x : NodeId} (hx : x ∈ f.pre ++ f.top :: p.nextId :: f.post) :
    f.rewired.columnCount x = f.moved.columnCount x := by
  refine (f.redirection hp hroot hjoin).columnCount_of_eq (f.arranged_moved hp hroot hjoin)
    (f.arranged_rewired hp hroot hjoin) ?_ x hx
  rw [f.columnCount_moved_nextId hp hroot, f.columnCount_moved_eq hp (f.mem_order.mpr (.inl rfl)),
    f.columnCount_top hp hroot hjoin]

/-- What becomes of the expressions of a node before the chain retires. -/
theorem op_rewired {x : NodeId} (hx : x ∈ f.pre ++ f.post) :
    f.rewired.op x = (p.op x).mapExprs (Expr.mapColumns (f.movedColumn x)) := by
  have hchanged := (f.mem_changed hp.arranged.toOrdered).mpr hx
  rw [Plan.op, (f.redirection hp hroot hjoin).node_eq x hchanged]
  change (f.moved.node x).movedOp f.top p.nextId none _ = _
  unfold Node.movedOp
  dsimp only
  rw [if_neg (by simp), f.node_moved, if_pos hx, Operator.mapExprs_mapExprs]
  exact Operator.mapExprs_congr fun e _ => Expr.mapColumns_mapColumns _ _ e

end

end Takeover

namespace Flattening

variable (f : Flattening p root q)

section

variable (hp : p.WellFormed) (hroot : root ∈ p.order) (hjoin : p.isBinaryJoin f.topJoin = true)
include hp hroot hjoin

/-- No node changes its width. -/
theorem columnCount_result {x : NodeId} (hx : x ∈ f.pre ++ f.top :: p.nextId :: f.post) :
    q.columnCount x = f.moved.columnCount x := by
  rw [f.retires.columnCount_eq, f.columnCount_rewired hp hroot hjoin hx]

theorem columnCount_eq {x : NodeId} (hx : x ∈ p.order) : q.columnCount x = p.columnCount x := by
  rw [f.columnCount_result hp hroot hjoin, f.columnCount_moved_eq hp hx]
  rw [f.order_eq_top] at hx
  simp only [mem_append, mem_cons] at hx ⊢
  grind

/-- The new node is as wide as the node whose place it takes. -/
theorem columnCount_nextId : q.columnCount p.nextId = p.columnCount f.top := by
  rw [f.columnCount_result hp hroot hjoin (by simp), f.columnCount_moved_nextId hp hroot,
    f.columnCount_top hp hroot hjoin]

theorem columnCount_replaced {x : NodeId} (hx : x ∈ p.order) :
    q.columnCount (f.top.replaced p.nextId x) = p.columnCount x := by
  by_cases htop : x = f.top
  · rw [htop, NodeId.replaced_self, f.columnCount_nextId hp hroot hjoin]
  · rw [NodeId.replaced_of_ne _ htop, f.columnCount_eq hp hroot hjoin hx]

/-- The flattened inputs keep their columns. -/
theorem columnsOf_inputs : q.columnsOf f.inputs = f.columns := by
  rw [NewNode.columns, columnsOf, columnsOf]
  exact flatMap_congr fun i hi => by
    rw [f.columnCount_eq hp hroot hjoin (f.inputs_subset hp hroot hi)]

/-! ### What is left -/

omit hjoin in
/-- What is live besides the new node was live, and did not belong to the chain. -/
theorem mem_of_mem_result {x : NodeId} (hx : x ∈ q.order) (hne : x ≠ p.nextId) :
    x ∈ f.pre ++ f.post ∧ x ∉ f.below := by
  have hordered := hp.arranged.toOrdered
  rw [f.order_result hordered hroot] at hx
  rcases mem_append.mp hx with hx | hx
  · obtain ⟨hx, hnot⟩ := mem_filter.mp hx
    exact ⟨mem_append_left _ hx, of_decide_eq_true hnot⟩
  · have hx := (mem_cons.mp hx).resolve_left hne
    refine ⟨mem_append_right _ hx, fun hbelow => ?_⟩
    exact (nodup_append.mp (f.nodup hordered)).2.2 x (f.below_before hordered hroot hbelow) x
      (mem_cons_of_mem _ hx) rfl

omit hp hroot hjoin in
theorem isJoin_eq {x : NodeId} (hx : x ∈ f.pre ++ f.post) :
    (q.op x).isJoin = (p.op x).isJoin := by
  rw [f.retires.isJoin_eq, f.rewires.op_isJoin, f.isJoin_moved hx]

end

section

variable (hp : p.WellFormed) (hroot : root ∈ p.order) (hjoin : p.isBinaryJoin f.topJoin = true)
  {x : NodeId} (hx : x ∈ f.pre ++ f.post)
include hp hroot hjoin hx

section

variable (hleft : x ∉ f.below) (hsees : f.top ∈ p.inputs x → (p.op x).isJoin = true)
include hleft hsees

omit hroot hjoin hleft in
/-- Such a node sees the new node where it saw the top. -/
theorem reads_eq : q.reads x = (p.reads x).map (f.top.replaced p.nextId) := by
  have hordered := hp.arranged.toOrdered
  refine reads_map (f.isJoin_eq hx) (f.inputs_eq hordered hx) fun hxJoin i hi => ?_
  have hne : i ≠ f.top := by
    rintro rfl
    rw [hsees hi] at hxJoin
    cases hxJoin
  have hiLeft := (f.mem_order.mp
    (hordered.mem_of_input (f.mem_order.mpr (.inr hx)) hi)).resolve_left hne
  rw [NodeId.replaced_of_ne _ hne, exposed, exposed, f.isJoin_eq hiLeft]
  split
  · exact f.inputs_eq hordered hiLeft
  · rw [map_singleton, NodeId.replaced_of_ne _ hne]

omit hleft in
theorem columnsOf_of_sees :
    q.columnsOf (q.reads x) = (p.columnsOf (p.reads x)).map f.replacedColumn := by
  rw [f.reads_eq hp hx hsees]
  exact columnsOf_map fun y hy => f.columnCount_replaced hp hroot hjoin
    (hp.arranged.reads_subset (f.mem_order.mpr (.inr hx)) hy)

theorem idxOf_of_sees {c : ColumnRef} (hc : c ∈ (p.op x).columns) :
    (q.columnsOf (q.reads x)).idxOf (f.movedColumn x c) = (p.columnsOf (p.reads x)).idxOf c := by
  have hlive := f.mem_order.mpr (.inr hx)
  rw [f.columnsOf_of_sees hp hroot hjoin hx hsees,
    f.movedColumn_of_sees hp hroot hjoin hx hleft hsees hc]
  refine idxOf_replaced (hp.reads_of_mem hlive hc).1 fun _ hnew => ?_
  exact hp.arranged.toOrdered.nextId_not_mem (hp.arranged.reads_subset hlive hnew)

end

omit hjoin hx in
/-- The operator of the new node. -/
theorem op_nextId : q.op p.nextId = .leftDeepJoin f.op := by
  have hordered := hp.arranged.toOrdered
  have hmem : p.nextId ∈ f.rewired.order := by
    rw [f.order_rewired]
    simp
  have hsame := f.retires.node_eq p.nextId hmem (f.nextId_not_mem_below hp.arranged.toOrdered hroot)
    fun hne => absurd rfl hne
  rw [Plan.op, hsame, f.rewires.node_other _ fun hmem =>
    f.ne_nextId hordered ((f.mem_changed hordered).mp hmem) rfl, f.node_nextId hordered]
  rfl

section

variable (hread : f.top ∈ p.inputs x) (hxJoin : (p.op x).isJoin = false)
include hread hxJoin

/-- A node that read the top and refers to columns reads the columns of the flattened inputs. -/
theorem columnsOf_of_reads {c : ColumnRef} (hc : c ∈ (p.op x).columns) :
    q.columnsOf (q.reads x) = f.columns := by
  have hordered := hp.arranged.toOrdered
  rw [reads_of_not_join ((f.isJoin_eq hx).trans hxJoin), f.inputs_eq hordered hx,
    f.inputs_of_reads hp hx hread hxJoin hc, map_singleton, NodeId.replaced_self, flatMap_singleton,
    exposed_of_join (by rw [f.op_nextId hp hroot]; rfl), f.inputs_nextId hordered]
  exact f.columnsOf_inputs hp hroot hjoin

end

variable (hleft : x ∉ f.below) {c : ColumnRef} (hc : c ∈ (p.op x).columns)
include hleft hc

/-- A reference of a node that is left is to a column that the node sees. -/
theorem movedColumn_mem_scope : f.movedColumn x c ∈ q.columnsOf (q.reads x) := by
  by_cases hsees : f.top ∈ p.inputs x → (p.op x).isJoin = true
  · rw [f.columnsOf_of_sees hp hroot hjoin hx hsees,
      f.movedColumn_of_sees hp hroot hjoin hx hleft hsees hc]
    exact mem_map_of_mem (mem_columnsOf.mpr (hp.reads_of_mem (f.mem_order.mpr (.inr hx)) hc))
  · obtain ⟨hread, hxJoin⟩ := Classical.not_imp.mp hsees
    have hxJoin : (p.op x).isJoin = false := by simpa using hxJoin
    rw [f.columnsOf_of_reads hp hroot hjoin hx hread hxJoin hc]
    exact f.movedColumn_mem hp hroot hjoin hx hread hxJoin hc

/-- If the flattened inputs are distinct, that column is at the position where it was. -/
theorem idxOf_movedColumn (hdistinct : f.inputs.Nodup) :
    (q.columnsOf (q.reads x)).idxOf (f.movedColumn x c) = (p.columnsOf (p.reads x)).idxOf c := by
  by_cases hsees : f.top ∈ p.inputs x → (p.op x).isJoin = true
  · exact f.idxOf_of_sees hp hroot hjoin hx hleft hsees hc
  obtain ⟨hread, hxJoin⟩ := Classical.not_imp.mp hsees
  have hxJoin : (p.op x).isJoin = false := by simpa using hxJoin
  rw [f.columnsOf_of_reads hp hroot hjoin hx hread hxJoin hc, reads_of_not_join hxJoin,
    f.inputs_of_reads hp hx hread hxJoin hc, flatMap_singleton]
  exact f.idxOf_of_reads hp hroot hjoin hx hread hxJoin hdistinct hc

/-- No reference to the chain is left. -/
theorem source_movedColumn : (f.movedColumn x c).source ∉ f.below := by
  have hordered := hp.arranged.toOrdered
  by_cases hsees : f.top ∈ p.inputs x → (p.op x).isJoin = true
  · rw [f.movedColumn_of_sees hp hroot hjoin hx hleft hsees hc]
    change f.top.replaced p.nextId c.source ∉ f.below
    have hsource := (hp.reads_of_mem (f.mem_order.mpr (.inr hx)) hc).1
    unfold NodeId.replaced
    split
    · exact f.nextId_not_mem_below hordered hroot
    · exact f.not_mem_below_of_reads hp hroot hx hleft hsees hsource
  · obtain ⟨hread, hxJoin⟩ := Classical.not_imp.mp hsees
    have hxJoin : (p.op x).isJoin = false := by simpa using hxJoin
    have hmem := f.movedColumn_mem hp hroot hjoin hx hread hxJoin hc
    exact (f.inputs_before hordered hroot (mem_columnsOf.mp hmem).1).2

omit hc in
/-- The operator of a node that is left, with its references moved. -/
theorem op_eq : q.op x = (p.op x).mapExprs (Expr.mapColumns (f.movedColumn x)) := by
  have hmem : x ∈ f.rewired.order := by
    rw [f.order_rewired]
    exact mem_middle_iff.mpr (.inr hx)
  have hop := f.op_rewired hp hroot hjoin hx
  have hsame := f.retires.node_eq x hmem hleft fun _ c hc => by
    rw [hop, Operator.columns_mapExprs] at hc
    obtain ⟨d, hd, rfl⟩ := mem_map.mp hc
    exact f.source_movedColumn hp hroot hjoin hx hleft hd
  rw [← hop]
  exact congrArg Node.op hsame

end

section

variable (hp : p.WellFormed) (hroot : root ∈ p.order) (hjoin : p.isBinaryJoin f.topJoin = true)
include hp hroot hjoin

theorem arranged : q.Arranged q.order where
  toOrdered := f.ordered hp.arranged.toOrdered hroot
  arity x hx := by
    have hrewired := (f.arranged_rewired hp hroot hjoin).of_sameShape f.retires.toSameShape
    refine hrewired.arity x ?_
    by_cases hne : x = p.nextId
    · simp [hne]
    · have hleft := (f.mem_of_mem_result hp hroot hx hne).1
      simp only [mem_append, mem_cons] at hleft ⊢
      grind

/-- Flattening a chain of joins keeps a plan well-formed. -/
theorem wellFormed : q.WellFormed := by
  have hordered := hp.arranged.toOrdered
  have hnew := f.op_nextId hp hroot
  refine wellFormed_of_reads (f.arranged hp hroot hjoin) (fun x hx => ?_) (fun x hx => ?_)
    fun x hx c hc => ?_
  all_goals by_cases hne : x = p.nextId
  · rw [hne, hnew]
    trivial
  · obtain ⟨hx, hleft⟩ := f.mem_of_mem_result hp hroot hx hne
    rw [f.op_eq hp hroot hjoin hx hleft]
    exact Operator.fieldsMatch_mapExprs _ _ (hp.fieldsMatch x (f.mem_order.mpr (.inr hx)))
  · rw [hne, hnew]
    intro e he
    obtain ⟨d, rfl, hleaves⟩ := f.exists_of_exprs hp hroot hjoin he
    rw [Expr.hasPositional_mapColumns, Expr.hasPositional_eq_false_iff]
    intro l hl
    rcases hleaves l hl with ⟨literal, rfl⟩ | ⟨y, hy, e, he, hl⟩
    · rfl
    · have hlive := f.chain.subset hordered hroot hy
      exact Expr.hasPositional_eq_false_iff.mp (hp.bound y hlive e he) l hl
  · obtain ⟨hx, hleft⟩ := f.mem_of_mem_result hp hroot hx hne
    rw [f.op_eq hp hroot hjoin hx hleft, Operator.exprs_mapExprs]
    intro e he
    obtain ⟨d, hd, rfl⟩ := mem_map.mp he
    rw [Expr.hasPositional_mapColumns]
    exact hp.bound x (f.mem_order.mpr (.inr hx)) d hd
  · rw [hne, hnew] at hc
    rw [hne, ← mem_columnsOf, reads_of_join (by rw [hnew]; rfl), f.inputs_nextId hordered,
      f.columnsOf_inputs hp hroot hjoin]
    exact f.columns_op hp hroot hjoin hc
  · obtain ⟨hx, hleft⟩ := f.mem_of_mem_result hp hroot hx hne
    rw [f.op_eq hp hroot hjoin hx hleft, Operator.columns_mapExprs] at hc
    obtain ⟨d, hd, rfl⟩ := mem_map.mp hc
    exact mem_columnsOf.mp (f.movedColumn_mem_scope hp hroot hjoin hx hleft hd)

end

end Flattening

end Plan

end QueryPlan
