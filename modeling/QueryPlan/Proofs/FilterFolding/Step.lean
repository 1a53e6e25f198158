import QueryPlan.Proofs.Meaning.Rows
import QueryPlan.Proofs.Scope.Removal
import QueryPlan.Proofs.Scope.Repositioning
/-!
# QueryPlan.Proofs.FilterFolding.Step

**One filter merged into the next.** A step of the pass either finds nothing to do or merges a
filter into the only node that reads it (`Plan.Folded`). The filter above then reads what the one
below read, and its condition is that of the one below followed by its own, in terms of the columns
that it sees now. Nothing else changes, the numbers of uses included (`Folded.useCount_eq`), and
every node that stays has the rows it had (`Folded.rows_eq`).
-/

namespace QueryPlan

open List

namespace Filter

/-- A filter has the conjuncts that are put in front of it and its own. -/
theorem conjuncts_prepend (f : Filter) (inner : Expr) :
    (f.prepend inner).condition.conjuncts = inner.conjuncts ++ f.condition.conjuncts := by
  unfold prepend
  cases hall : Expr.all? (inner.conjuncts ++ f.condition.conjuncts) with
  | none =>
      -- Without any conjuncts the filter keeps its own condition, which has none either.
      have hnone := Expr.all?_eq_none_iff.mp hall
      rw [hnone]
      exact (append_eq_nil_iff.mp hnone).2
  | some e =>
      refine Expr.conjuncts_of_all?_conjuncts hall fun d hd => ?_
      rcases mem_append.mp hd with hd | hd <;> exact Expr.conjuncts_of_mem_conjuncts hd

theorem mem_columns_prepend {f : Filter} {inner : Expr} {c : ColumnRef}
    (hc : c ∈ (f.prepend inner).condition.columns) :
    c ∈ inner.columns ∨ c ∈ f.condition.columns := by
  unfold prepend at hc
  dsimp only at hc
  cases hall : Expr.all? (inner.conjuncts ++ f.condition.conjuncts) with
  | none =>
      rw [hall] at hc
      exact .inr hc
  | some e =>
      rw [hall, Option.getD_some] at hc
      obtain ⟨d, hd, hleaf⟩ := Expr.exists_of_mem_leaves_all? hall (Expr.mem_columns_iff.mp hc)
      have hc := Expr.mem_columns_iff.mpr hleaf
      exact (mem_append.mp hd).imp (fun hd => Expr.columns_subset_of_mem_conjuncts hd hc)
        fun hd => Expr.columns_subset_of_mem_conjuncts hd hc

end Filter

/-- A row passes a merged filter if it passes both. -/
theorem Meaning.Conjoins.holds_prepend {V : Type} {M : Meaning V} (hM : M.Conjoins) (env : Env V)
    (f : Filter) (inner : Expr) : M.holds env (f.prepend inner).condition =
      (M.holds env inner && M.holds env f.condition) := by
  rw [hM.holds_eq_all, f.conjuncts_prepend, all_append, ← hM.holds_eq_all, ← hM.holds_eq_all]

namespace Plan

variable {p q r : Plan} {id inner outer input x : NodeId}

/-- Merging a condition into a filter. -/
theorem mergeCondition_of_filter {f : Filter} (hop : p.op id = .filter f) (inner : Expr) :
    p.mergeCondition id inner = p.setOp id (.filter (f.prepend inner)) := by
  unfold mergeCondition
  rw [hop]

/-! ### What a step does -/

/-- A filter was merged into the only node that read it, a filter. -/
structure Folded (p q : Plan) (inner outer input : NodeId) (f g : Filter) : Prop where
  unambiguous : p.Unambiguous
  live : outer ∈ p.order
  op_outer : p.op outer = .filter f
  inputs_outer : p.inputs outer = [inner]
  op_inner : p.op inner = .filter g
  inputs_inner : p.inputs inner = [input]
  useCount_inner : p.useCount inner = 1
  order_eq : q.order = p.order.filter fun n => n != inner
  size_eq : q.arena.size = p.arena.size
  node_other : ∀ x ∈ p.order, x ≠ inner → x ≠ outer → q.node x = p.node x
  node_outer : q.node outer = { p.node outer with
    inputs := [input]
    op := .filter ((⟨f.condition.mapColumns (p.repositioned q outer outer)⟩ : Filter).prepend
      g.condition) }
  columnCount_eq : ∀ x ∈ p.order, q.columnCount x = p.columnCount x
  scope_outer : q.columnsOf (q.reads outer) = p.columnsOf (p.reads inner)

/-- The only reader of a filter sees it directly, so nothing else sees it. -/
theorem Unambiguous.unseen_of_filter {f : Filter} (h : p.Unambiguous) (hlive : outer ∈ p.order)
    (hop : p.op outer = .filter f) (hinputs : p.inputs outer = [inner])
    (huse : p.useCount inner = 1) :
    ∀ x ∈ p.order, x ∉ [outer] → inner ∉ p.inputs x ∧ inner ∉ p.reads x := by
  intro x hx hne
  have hread : inner ∈ p.inputs outer := hinputs ▸ mem_singleton_self inner
  have hunread : ∀ n ∈ p.order, inner ∈ p.inputs n → n = outer := fun n hn hn' =>
    reader_unique huse hn hn' hlive hread
  have hinput : inner ∉ p.inputs x := fun hmem => hne (by simpa using hunread x hx hmem)
  refine ⟨hinput, fun hsee => ?_⟩
  obtain ⟨i, hi, hjoin, hsee⟩ := (mem_inputs_of_reads hsee).resolve_left hinput
  rw [hunread i (h.arranged.mem_of_input hx hi) hsee, hop] at hjoin
  cases hjoin

/-- A filter can be merged into the filter that alone reads it. -/
theorem Unambiguous.fold_ok {f g : Filter} (h : p.Unambiguous) (hlive : outer ∈ p.order)
    (hop : p.op outer = .filter f) (hinputs : p.inputs outer = [inner])
    (hopInner : p.op inner = .filter g) (hinputsInner : p.inputs inner = [input])
    (huse : p.useCount inner = 1) :
    ∃ r, p.replaceInput outer inner input none = .ok r ∧
      Folded p ((r.mergeCondition outer g.condition).remove inner) inner outer input f g := by
  have hread : inner ∈ p.inputs outer := hinputs ▸ mem_singleton_self inner
  have hpair := h.arranged.before outer hlive inner hread
  have hinner : inner ∈ p.order := mem_left hpair
  have hpairInput := h.arranged.before inner hinner input (hinputsInner ▸ mem_singleton_self input)
  have hne : inner ≠ outer := ne_of_pair h.nodup hpair
  have hinputNe : input ≠ outer := ne_of_pair h.nodup (pair_sublist_trans h.nodup hpairInput hpair)
  obtain ⟨r, hr, hf⟩ := h.toScoped.lowered_ok hinner (by rw [hopInner]; rfl) hinputsInner
    (nodup_singleton outer) (by simpa using hlive) (by simpa using hinputNe)
    (h.unseen_of_filter hlive hop hinputs huse)
  have hr : p.replaceInput outer inner input none = .ok r := by simpa using hr
  have hopR : r.op outer = .filter ⟨f.condition.mapColumns (p.repositioned r outer outer)⟩ := by
    rw [hf.op_lowered hlive, hop]
    rfl
  refine ⟨r, hr, ?_⟩
  rw [mergeCondition_of_filter hopR]
  generalize hmerged : (⟨f.condition.mapColumns (p.repositioned r outer outer)⟩ : Filter).prepend
    g.condition = merged
  generalize hq : (r.setOp outer (.filter merged)).remove inner = q
  -- Neither a new condition nor the removal changes what any node sees.
  have hshape : SameShape r q := by
    refine hq ▸ .trans (.setOp (hf.size_eq ▸ h.inArena hlive) ?_ ?_) (.of_arena_eq rfl) <;>
      rw [hopR] <;> rfl
  have hscope := hshape.columnsOf_reads_eq
  obtain ⟨-, hdirect⟩ := hf.columnsOf_direct hlive (by rw [hop]; rfl) hinputs
  exact {
    unambiguous := h
    live := hlive
    op_outer := hop
    inputs_outer := hinputs
    op_inner := hopInner
    inputs_inner := hinputsInner
    useCount_inner := huse
    order_eq := by rw [← hq, order_remove, order_setOp, hf.order_eq]
    size_eq := by rw [← hq, size_remove, size_setOp, hf.size_eq]
    node_other := fun x _ _ hx => by
      rw [← hq, node_remove, node_setOp_of_ne _ hx, hf.node_other x (by simpa using hx)]
    node_outer := by
      have hmapped : (p.node outer).inputs.map (inner.replaced input) = [input] := by
        rw [show (p.node outer).inputs = [inner] from hinputs, map_singleton,
          NodeId.replaced_self]
      rw [repositioned_congr (hscope outer), hmerged, ← hq, node_remove, Plan.setOp,
        node_modify_self _ (hf.size_eq ▸ h.inArena hlive), hf.node_eq_reread hlive, Node.reread,
        hmapped]
    columnCount_eq := fun x hx => by
      rw [hshape.columnCount_eq, hf.columnCount_lowered hx]
    scope_outer := by
      rw [hscope, hdirect, reads_of_input (by rw [hopInner]; rfl) hinputsInner] }

namespace Folded

variable {f g : Filter} (s : Folded p q inner outer input f g)
include s

theorem pair : [inner, outer] <+ p.order :=
  s.unambiguous.arranged.before outer s.live inner (s.inputs_outer ▸ mem_singleton_self inner)

theorem inner_live : inner ∈ p.order := mem_left s.pair

theorem inner_ne : inner ≠ outer := ne_of_pair s.unambiguous.nodup s.pair

theorem input_pair : [input, inner] <+ p.order :=
  s.unambiguous.arranged.before inner s.inner_live input
    (s.inputs_inner ▸ mem_singleton_self input)

theorem input_ne : input ≠ inner := ne_of_pair s.unambiguous.nodup s.input_pair

theorem mem_order : x ∈ q.order ↔ x ∈ p.order ∧ x ≠ inner := by
  rw [s.order_eq, mem_filter, bne_iff_ne]

theorem op_other (hx : x ∈ p.order) (hinner : x ≠ inner) (houter : x ≠ outer) :
    q.op x = p.op x := op_congr (s.node_other x hx hinner houter)

theorem inputs_other (hx : x ∈ p.order) (hinner : x ≠ inner) (houter : x ≠ outer) :
    q.inputs x = p.inputs x := inputs_congr (s.node_other x hx hinner houter)

theorem inputs_outer_eq : q.inputs outer = [input] := congrArg Node.inputs s.node_outer

theorem op_outer_eq : q.op outer =
    .filter ((⟨f.condition.mapColumns (p.repositioned q outer outer)⟩ : Filter).prepend
      g.condition) := congrArg Node.op s.node_outer

theorem isJoin_eq (hx : x ∈ q.order) : (q.op x).isJoin = (p.op x).isJoin := by
  obtain ⟨hx, hinner⟩ := s.mem_order.mp hx
  by_cases houter : x = outer
  · rw [houter, s.op_outer_eq, s.op_outer]
    rfl
  · rw [s.op_other hx hinner houter]

/-- The filter above is the only node that reads the one below. -/
theorem not_mem_inputs (hx : x ∈ p.order) (houter : x ≠ outer) : inner ∉ p.inputs x :=
  fun hread => houter (reader_unique s.useCount_inner hx hread s.live
    (s.inputs_outer ▸ mem_singleton_self inner))

/-- What the other nodes read stays. -/
theorem mem_order_of_inputs (hx : x ∈ q.order) {i : NodeId} (hi : i ∈ q.inputs x) :
    i ∈ q.order := by
  obtain ⟨hx, hinner⟩ := s.mem_order.mp hx
  by_cases houter : x = outer
  · rw [houter, s.inputs_outer_eq, mem_singleton] at hi
    exact s.mem_order.mpr ⟨hi ▸ mem_left s.input_pair, hi ▸ s.input_ne⟩
  · rw [s.inputs_other hx hinner houter] at hi
    refine s.mem_order.mpr ⟨s.unambiguous.arranged.mem_of_input hx hi, ?_⟩
    rintro rfl
    exact s.not_mem_inputs hx houter hi

/-- A node that stays exposes what it exposed. -/
theorem exposed_eq (hx : x ∈ q.order) : q.exposed x = p.exposed x := by
  rw [exposed, exposed, s.isJoin_eq hx]
  split
  · next hjoin =>
    obtain ⟨hx, hinner⟩ := s.mem_order.mp hx
    refine s.inputs_other hx hinner ?_
    rintro rfl
    rw [s.op_outer] at hjoin
    cases hjoin
  · rfl

/-- The other nodes see what they saw. -/
theorem scope_other (hx : x ∈ q.order) (houter : x ≠ outer) :
    q.columnsOf (q.reads x) = p.columnsOf (p.reads x) := by
  have hxp := s.mem_order.mp hx
  have hinputs := s.inputs_other hxp.1 hxp.2 houter
  have hreads : q.reads x = p.reads x := by
    rw [reads, reads, s.isJoin_eq hx, hinputs]
    split
    · rfl
    · exact flatMap_congr fun i hi =>
        s.exposed_eq (s.mem_order_of_inputs hx (hinputs ▸ hi))
  rw [hreads, columnsOf, columnsOf]
  exact flatMap_congr fun i hi => by
    rw [s.columnCount_eq i (s.unambiguous.arranged.reads_subset hxp.1 hi)]

/-! ### References -/

theorem idxOf_lt (c : ColumnRef) (hc : c ∈ f.condition.columns) :
    (p.columnsOf (p.reads outer)).idxOf c < (q.columnsOf (q.reads outer)).length := by
  have hlt := s.unambiguous.idxOf_lt s.live (columns_of_filter s.op_outer ▸ hc)
  rw [s.scope_outer]
  refine hlt.trans_eq ?_
  -- Both filters are as wide as the input of the lower one.
  have h := s.unambiguous.arranged
  rw [h.length_columnsOf_reads s.live, h.length_columnsOf_reads s.inner_live, s.inputs_outer,
    s.inputs_inner, map_singleton, map_singleton, sum_singleton, sum_singleton]
  exact h.columnCount_of_first s.inner_live (by rw [s.op_inner]; rfl) s.inputs_inner

/-- The merged filter refers to columns that it sees. -/
theorem mem_scope_outer {c : ColumnRef} (hc : c ∈ (q.op outer).columns) :
    c ∈ q.columnsOf (q.reads outer) := by
  rw [columns_of_filter s.op_outer_eq] at hc
  rcases Filter.mem_columns_prepend hc with hc | hc
  · rw [s.scope_outer]
    exact s.unambiguous.mem_columnsOf s.inner_live (columns_of_filter s.op_inner ▸ hc)
  · rw [Expr.columns_mapColumns] at hc
    obtain ⟨d, hd, rfl⟩ := mem_map.mp hc
    exact repositioned_mem (s.idxOf_lt d hd)

theorem unambiguous_folded : q.Unambiguous := by
  have h := s.unambiguous
  have harranged : q.Arranged q.order := by
    refine ⟨⟨s.order_eq ▸ h.nodup.filter _, fun x hx => ?_, fun x hx i hi => ?_⟩, fun x hx => ?_⟩
    · exact s.size_eq ▸ h.inArena (s.mem_order.mp hx).1
    · have hi' := s.mem_order_of_inputs hx hi
      obtain ⟨hx', hinner⟩ := s.mem_order.mp hx
      have hpair : [i, x] <+ p.order := by
        by_cases houter : x = outer
        · rw [houter, s.inputs_outer_eq, mem_singleton] at hi
          exact houter ▸ hi ▸ pair_sublist_trans h.nodup s.input_pair s.pair
        · rw [s.inputs_other hx' hinner houter] at hi
          exact h.arranged.before x hx' i hi
      have hkept := hpair.filter fun n => n != inner
      rw [← s.order_eq] at hkept
      simpa [(s.mem_order.mp hi').2, hinner] using hkept
    · obtain ⟨hx', hinner⟩ := s.mem_order.mp hx
      by_cases houter : x = outer
      · rw [houter, s.op_outer_eq, s.inputs_outer_eq]
        rfl
      · rw [s.op_other hx' hinner houter, s.inputs_other hx' hinner houter]
        exact h.arranged.arity x hx'
  refine ⟨scoped_of_reads harranged fun x hx c hc => Plan.mem_columnsOf.mp ?_,
    fun x hx hjoin => ?_⟩ <;> obtain ⟨hx', hinner⟩ := s.mem_order.mp hx <;>
    by_cases houter : x = outer
  · rw [houter] at hc ⊢
    exact s.mem_scope_outer hc
  · rw [s.op_other hx' hinner houter] at hc
    rw [s.scope_other hx houter]
    exact h.mem_columnsOf hx' hc
  · rw [houter, s.op_outer_eq] at hjoin
    cases hjoin
  · rw [s.op_other hx' hinner houter] at hjoin
    rw [s.inputs_other hx' hinner houter]
    exact h.distinct x hx' hjoin

/-! ### Uses -/

/-- The filter above uses what the one below used, so every node that stays is used as often as
before. -/
theorem useCount_eq (hx : x ≠ inner) : q.useCount x = p.useCount x := by
  have hnodup := s.unambiguous.nodup
  have hrest : q.order = p.order.erase inner := by
    rw [s.order_eq, hnodup.erase_eq_filter]
  have houter : outer ∈ q.order := s.mem_order.mpr ⟨s.live, s.inner_ne.symm⟩
  have hother : ((q.order.erase outer).map fun n => (q.node n).uses x) =
      (q.order.erase outer).map fun n => (p.node n).uses x := by
    refine map_congr_left fun n hn => ?_
    have hnodup' := s.order_eq ▸ hnodup.filter _
    obtain ⟨hne, hn⟩ := hnodup'.mem_erase_iff.mp hn
    obtain ⟨hn, hinner⟩ := s.mem_order.mp hn
    rw [s.node_other n hn hinner hne]
  have hinner : (p.node inner).uses x = (q.node outer).uses x := by
    change (p.inputs inner).count x = (q.inputs outer).count x
    rw [s.inputs_inner, s.inputs_outer_eq]
  have hnone : (p.node outer).uses x = 0 := by
    change (p.inputs outer).count x = 0
    rw [s.inputs_outer, count_eq_zero]
    simpa using hx
  rw [useCount, useCount, ← sum_map_erase _ s.inner_live, ← hrest, ← sum_map_erase _ houter,
    ← sum_map_erase _ houter, hother, hinner, hnone, Nat.zero_add]

/-! ### Rows -/

variable {V : Type} [DecidableEq V] {M : Meaning V}

/-- The merged filter lets the rows pass that passed both filters. -/
theorem rows_outer (hM : M.Conjoins) : M.node (q.op outer) (q.columnsOf (q.reads outer))
    ((q.inputs outer).map q.columnCount) ((q.inputs outer).map (p.rows M)) =
      p.rows M outer := by
  have h := s.unambiguous.arranged.toOrdered
  have hnodup : (q.reads outer).Nodup := by
    rw [reads_of_not_join (by rw [s.op_outer_eq]; rfl), s.inputs_outer_eq, flatMap_singleton]
    have hlive : input ∈ q.order :=
      s.mem_order.mpr ⟨mem_left s.input_pair, s.input_ne⟩
    cases hjoin : (q.op input).isJoin with
    | true => exact exposed_of_join hjoin ▸ s.unambiguous_folded.distinct input hlive hjoin
    | false => exact exposed_of_not_join hjoin ▸ nodup_singleton input
  rw [h.rows_eq s.live, s.inputs_outer, s.op_outer, s.inputs_outer_eq, s.op_outer_eq]
  simp only [map_singleton, Meaning.node, headD_cons]
  rw [h.rows_eq s.inner_live, s.inputs_inner, s.op_inner]
  simp only [map_singleton, Meaning.node, headD_cons]
  -- Over the rows of the input, both conditions are read by what the merged filter sees.
  rw [← Meaning.filtered_mapColumns (e := f.condition)
    fun c hc => idxOf_repositioned (s.idxOf_lt c hc) hnodup, ← s.scope_outer]
  simp only [Meaning.filtered, filter_filter]
  refine filter_congr fun row _ => ?_
  rw [hM.holds_prepend, Bool.and_comm]

/-- Every node that stays has the rows it had. -/
theorem rows_eq (hM : M.Conjoins) : ∀ x ∈ q.order, q.rows M x = p.rows M x := by
  have h := s.unambiguous.arranged
  refine s.unambiguous_folded.arranged.toOrdered.rows_unique fun x hx => ?_
  by_cases houter : x = outer
  · rw [houter, s.rows_outer hM]
  · obtain ⟨hx', hinner⟩ := s.mem_order.mp hx
    have hinputs := s.inputs_other hx' hinner houter
    have hcounts : (q.inputs x).map q.columnCount = (p.inputs x).map p.columnCount := by
      rw [hinputs]
      exact map_congr_left fun i hi => s.columnCount_eq i (h.mem_of_input hx' hi)
    rw [s.op_other hx' hinner houter, s.scope_other hx houter, hcounts, hinputs,
      h.toOrdered.rows_eq hx']

end Folded

end Plan

end QueryPlan
