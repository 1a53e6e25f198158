import QueryPlan.Proofs.Flattening.Levels
/-!
# QueryPlan.Proofs.Flattening.Columns

**The columns of the node for a chain.** The new node is made of the levels of the chain
(`NewNode.MadeOf`) and is as wide as the node whose place it takes. A reference that is left then
becomes one to a column at the same position (`NewNode.movedColumn`): a node that reads the top of
the chain sees the columns of the flattened inputs in its place (`NewNode.idxOf_of_reads`), and the
others see the new node where they saw the top (`NewNode.movedColumn_of_sees`).
-/

namespace QueryPlan

open List

/-- If every element that is found is the value of a plain function, so are they all. -/
theorem Result.eq_map_of_mapM {α β : Type} {f : α → Result β} {g : α → β} {as : List α}
    {bs : List β} (h : as.mapM f = .ok bs) (hf : ∀ a b, f a = .ok b → b = g a) :
    bs = as.map g := by
  induction mapM_eq_ok.mp h with
  | nil => rfl
  | cons hab hrest ih => rw [hf _ _ hab, ih (mapM_eq_ok.mpr hrest), map_cons]

namespace Plan

variable {p q : Plan} {root : NodeId}

theorem isJoin_of_isBinaryJoin {id : NodeId} (h : p.isBinaryJoin id = true) :
    (p.op id).isJoin = true := by
  unfold isBinaryJoin at h
  split at h
  · next hop => rw [hop]; rfl
  · cases h

theorem ChainAt.isBinaryJoin {filter : Option NodeId} {topJoin leftmost : NodeId}
    {joins : List NodeId} (h : p.ChainAt root filter topJoin joins leftmost)
    (hjoin : p.isBinaryJoin topJoin = true) : ∀ x ∈ joins, p.isBinaryJoin x = true := by
  intro x hx
  obtain ⟨below, hbelow⟩ := h.chain.exists_cons
  rw [hbelow] at hx
  rcases mem_cons.mp hx with rfl | hx
  · exact hjoin
  · exact (h.chain.of_mem_tail x (by rwa [hbelow])).1

theorem isFilter_iff {id : NodeId} : p.isFilter id = true ↔ ∃ f, p.op id = .filter f := by
  unfold isFilter
  split <;> simp_all

theorem Arranged.flattenedColumns_eq {l ids : List NodeId} (h : p.Arranged l) (hids : ids ⊆ l) :
    p.flattenedColumns ids = .ok (p.columnsOf ids) := by
  have hparts : ids.mapM (fun id => do return ColumnRef.range id (← p.width id)) =
      .ok (ids.map fun id => ColumnRef.range id (p.columnCount id)) :=
    Result.mapM_ok fun id hid => Result.bind_ok (h.width_eq (hids hid))
  rw [flattenedColumns, Result.bind_ok hparts, columnsOf, flatMap_def]
  rfl

section

variable {filter : Option NodeId} {topJoin leftmost : NodeId} {joins : List NodeId}
  {levels : ChainLevels} (h : p.ChainAt root filter topJoin joins leftmost)
  (hlevels : p.Leveled leftmost topJoin joins levels)
include h hlevels

/-- The conditions that a flattened chain takes over come from the nodes that it replaces. -/
theorem ChainAt.exists_of_leaves {e : Expr}
    (he : e ∈ p.chainConjuncts filter levels ∨ some e ∈ levels.outer) {l : Leaf}
    (hl : l ∈ e.leaves) :
    ∃ x ∈ filter.toList ++ joins, ∃ d ∈ (p.op x).exprs, l ∈ d.leaves := by
  suffices hcases : (e ∈ levels.conjuncts ∨ some e ∈ levels.outer) ∨
      e ∈ filter.toList.flatMap p.filterConjuncts by
    rcases hcases with hlevel | hfilter
    · obtain ⟨x, hx, hleaf⟩ := hlevels.exists_of_leaves hlevel hl
      exact ⟨x, mem_append_right _ hx, hleaf⟩
    · obtain ⟨above, habove, he⟩ := mem_flatMap.mp hfilter
      obtain ⟨rfl, hop, -⟩ := h.of_filter (Option.mem_toList.mp habove)
      obtain ⟨g, hg⟩ := isFilter_iff.mp hop
      refine ⟨above, mem_append_left _ habove, g.condition, ?_, ?_⟩
      · rw [hg]
        exact mem_singleton_self _
      · rw [filterConjuncts, hg] at he
        exact Expr.leaves_subset_of_mem_conjuncts he hl
  rw [chainConjuncts, mem_append] at he
  grind

theorem ChainAt.exists_of_columns {e : Expr}
    (he : e ∈ p.chainConjuncts filter levels ∨ some e ∈ levels.outer) {c : ColumnRef}
    (hc : c ∈ e.columns) : ∃ x ∈ filter.toList ++ joins, c ∈ (p.op x).columns := by
  obtain ⟨x, hx, d, hd, hleaf⟩ := h.exists_of_leaves hlevels he (Expr.mem_columns_iff.mp hc)
  exact ⟨x, hx, Operator.mem_columns.mpr ⟨d, hd, Expr.mem_columns_iff.mpr hleaf⟩⟩

/-- A node that a flattened chain replaces refers to joins of the chain and to flattened inputs. -/
theorem ChainAt.source_of_mem (hp : p.WellFormed) (hroot : root ∈ p.order)
    (hjoin : p.isBinaryJoin topJoin = true) {x : NodeId} (hx : x ∈ filter.toList ++ joins)
    {c : ColumnRef} (hc : c ∈ (p.op x).columns) :
    c.source ∈ joins ∨ c.source ∈ leftmost :: levels.inputs := by
  have hordered := hp.arranged.toOrdered
  obtain ⟨below, hbelow⟩ := h.chain.exists_cons
  have hread := (hp.reads_of_mem (h.subset hordered hroot hx) hc).1
  rcases mem_append.mp hx with hfilter | hx
  · obtain ⟨rfl, hop, hinputs, -⟩ := h.of_filter (Option.mem_toList.mp hfilter)
    obtain ⟨g, hg⟩ := isFilter_iff.mp hop
    rw [reads_of_input (by rw [hg]; rfl) hinputs,
      exposed_of_join (isJoin_of_isBinaryJoin hjoin)] at hread
    exact hlevels.mem_of_inputs (hbelow ▸ mem_cons_self) hread
  · rw [reads_of_join (isJoin_of_isBinaryJoin (h.isBinaryJoin hjoin x hx))] at hread
    exact hlevels.mem_of_inputs hx hread

end

namespace NewNode

variable (f : NewNode p root)

/-- The columns of the flattened inputs. -/
def columns : List ColumnRef := p.columnsOf f.inputs

/-- The new node is made of the levels of the chain. -/
structure MadeOf (levels : ChainLevels) : Prop where
  leveled : p.Leveled f.leftmost f.topJoin f.joins levels
  inputs_eq : f.inputs = f.leftmost :: levels.inputs
  kinds_eq : f.op.kinds = levels.kinds
  outer_eq : f.op.outer =
    levels.outer.map (Option.map (Expr.mapColumns (chainColumn f.joins f.columns)))
  condition_eq : f.op.condition = ((Expr.all? ((p.chainConjuncts f.filter levels).filter
    fun e => !e.isTrue)).getD (Expr.bool true)).mapColumns (chainColumn f.joins f.columns)

section

variable (hp : p.WellFormed) (hroot : root ∈ p.order) (hjoin : p.isBinaryJoin f.topJoin = true)
include hp hroot

theorem topJoin_mem : f.topJoin ∈ p.order := f.chain.topJoin_mem hp.arranged.toOrdered hroot

theorem inputs_subset : f.inputs ⊆ p.order := fun _ hi =>
  f.mem_order.mpr (.inr (mem_append_left _ (f.inputs_before hp.arranged.toOrdered hroot hi).1))

include hjoin

theorem exists_madeOf : ∃ levels, f.MadeOf levels := by
  obtain ⟨levels, columns, hlevels, hinputs, hcolumns, hcondition, houter, hkinds⟩ :=
    flattenChain_eq_ok f.flattenChain_eq
  rw [hp.arranged.flattenedColumns_eq (f.inputs_subset hp hroot)] at hcolumns
  cases hcolumns
  refine ⟨levels, f.chain.chain.leveled hp.arranged (f.topJoin_mem hp hroot) hjoin hlevels,
    hinputs, hkinds, Result.eq_map_of_mapM houter fun o o' ho => ?_,
    resolveChain_eq_ok hcondition⟩
  cases o with
  | none => exact (Result.pure_eq_ok.mp ho).symm
  | some e =>
      obtain ⟨e', he, ho⟩ := Result.bind_eq_ok.mp ho
      cases Result.pure_eq_ok.mp ho
      exact congrArg some (resolveChain_eq_ok he)

omit hjoin in
/-- If its inputs are distinct, the columns of the new node are told apart. -/
theorem apart (hdistinct : f.inputs.Nodup) {levels : ChainLevels} (hlevels : f.MadeOf levels) :
    p.Apart f.joins f.leftmost levels.inputs f.columns where
  columns_eq := by rw [columns, hlevels.inputs_eq]
  nodup := hlevels.inputs_eq ▸ hdistinct
  not_mem i hi hmem := by
    rw [← hlevels.inputs_eq] at hi
    have hnot := (f.chain.inputs_before hp.arranged.toOrdered hroot f.flattenChain_eq i hi).1
    exact hnot (mem_append_right _ hmem)

/-! ### Widths -/

theorem columnCount_top : p.columnCount f.top = f.columns.length := by
  obtain ⟨levels, hlevels⟩ := f.exists_madeOf hp hroot hjoin
  have hordered := hp.arranged.toOrdered
  rw [columns, hlevels.inputs_eq,
    ← hlevels.leveled.columnCount_eq hordered (f.topJoin_mem hp hroot)]
  unfold top
  cases hfilter : f.filter with
  | none => rfl
  | some filter =>
      obtain ⟨rfl, hop, hinputs, -⟩ := f.chain.of_filter hfilter
      obtain ⟨g, hg⟩ := isFilter_iff.mp hop
      rw [Option.getD_some, hordered.columnCount_eq hroot, hinputs, hg]
      rfl

/-- What refers to a join of the chain or to a flattened input finds a column of the new node. -/
theorem chainColumn_mem {c : ColumnRef} (hsource : c.source ∈ f.joins ∨ c.source ∈ f.inputs)
    (hlt : c.index < p.columnCount c.source) : chainColumn f.joins f.columns c ∈ f.columns := by
  obtain ⟨levels, hlevels⟩ := f.exists_madeOf hp hroot hjoin
  have hordered := hp.arranged.toOrdered
  have htopJoin := f.topJoin_mem hp hroot
  by_cases hmem : c.source ∈ f.joins
  · have hindex : c.index < f.columns.length := by
      rw [columns, hlevels.inputs_eq, ← hlevels.leveled.columnCount_eq hordered htopJoin]
      exact Nat.lt_of_lt_of_le hlt (hlevels.leveled.columnCount_le hordered htopJoin _ hmem)
    rw [chainColumn, if_pos hmem, getElem?_eq_getElem hindex]
    exact getElem_mem hindex
  · rw [chainColumn, if_neg hmem]
    exact mem_columnsOf.mpr ⟨hsource.resolve_left hmem, hlt⟩

/-- The expressions of the new node are made of those of the nodes that it replaces, with references
resolved against the columns of the flattened inputs. -/
theorem exists_of_exprs {e : Expr} (he : e ∈ (Operator.leftDeepJoin f.op).exprs) :
    ∃ d : Expr, e = d.mapColumns (chainColumn f.joins f.columns) ∧ ∀ l ∈ d.leaves,
      (∃ literal, l = .literal literal) ∨
        ∃ x ∈ f.filter.toList ++ f.joins, ∃ e' ∈ (p.op x).exprs, l ∈ e'.leaves := by
  obtain ⟨levels, hlevels⟩ := f.exists_madeOf hp hroot hjoin
  rcases mem_cons.mp he with rfl | he
  · refine ⟨_, hlevels.condition_eq, fun l hl => ?_⟩
    cases hall : Expr.all? ((p.chainConjuncts f.filter levels).filter fun e => !e.isTrue) with
    | none =>
        rw [hall] at hl
        exact .inl ⟨_, mem_singleton.mp hl⟩
    | some d =>
        rw [hall, Option.getD_some] at hl
        obtain ⟨e, he, hl⟩ := Expr.exists_of_mem_leaves_all? hall hl
        exact .inr (f.chain.exists_of_leaves hlevels.leveled (.inl (mem_filter.mp he).1) hl)
  · obtain ⟨o, ho, hoe⟩ := mem_filterMap.mp he
    rw [hlevels.outer_eq] at ho
    obtain ⟨d, hd, rfl⟩ := mem_map.mp ho
    obtain ⟨d, rfl, rfl⟩ := Option.map_eq_some_iff.mp hoe
    exact ⟨d, rfl, fun l hl =>
      .inr (f.chain.exists_of_leaves hlevels.leveled (.inr hd) hl)⟩

/-- The new node refers to columns of the flattened inputs only. -/
theorem columns_op {c : ColumnRef} (hc : c ∈ (Operator.leftDeepJoin f.op).columns) :
    c ∈ f.columns := by
  obtain ⟨e, he, hc⟩ := Operator.mem_columns.mp hc
  obtain ⟨d, rfl, hleaves⟩ := f.exists_of_exprs hp hroot hjoin he
  rw [Expr.columns_mapColumns] at hc
  obtain ⟨b, hb, rfl⟩ := mem_map.mp hc
  rcases hleaves _ (Expr.mem_columns_iff.mp hb) with ⟨_, ⟨⟩⟩ | ⟨x, hx, e, he, hleaf⟩
  obtain ⟨levels, hlevels⟩ := f.exists_madeOf hp hroot hjoin
  have hcolumn : b ∈ (p.op x).columns :=
    Operator.mem_columns.mpr ⟨e, he, Expr.mem_columns_iff.mpr hleaf⟩
  have hlive := f.chain.subset hp.arranged.toOrdered hroot hx
  refine f.chainColumn_mem hp hroot hjoin ?_ (hp.reads_of_mem hlive hcolumn).2
  rw [hlevels.inputs_eq]
  exact f.chain.source_of_mem hlevels.leveled hp hroot hjoin hx hcolumn

theorem arranged_moved : f.moved.Arranged (f.pre ++ f.top :: p.nextId :: f.post) := by
  obtain ⟨levels, hlevels⟩ := f.exists_madeOf hp hroot hjoin
  have hordered := hp.arranged.toOrdered
  have hlist : p.Arranged ((f.pre ++ [f.top]) ++ f.post) := by
    rw [append_assoc, singleton_append, ← f.order_eq_top]
    exact hp.arranged
  have harity : f.node.op.arity.admits f.node.inputs.length = true := by
    obtain ⟨below, hbelow⟩ := f.chain.chain.exists_cons
    have hinputs : 2 ≤ f.inputs.length := by
      rw [hlevels.inputs_eq, length_cons, hlevels.leveled.length_inputs, hbelow, length_cons]
      omega
    exact decide_eq_true hinputs
  have hnew := hlist.insert harity fun i hi =>
    mem_append_left _ (f.inputs_before hordered hroot hi).1
  rw [append_assoc, singleton_append] at hnew
  exact hnew.of_sameShape f.shape

omit hroot hjoin in
theorem columnCount_moved_eq {x : NodeId} (hx : x ∈ p.order) :
    f.moved.columnCount x = p.columnCount x := by
  rw [f.shape.columnCount_eq]
  exact hp.arranged.columnCount_alloc _ x hx

omit hjoin in
theorem columnCount_moved_nextId : f.moved.columnCount p.nextId = f.columns.length := by
  have hordered := hp.arranged.toOrdered
  have hlayout : ((p.alloc f.node).op p.nextId).layout = .all := by
    rw [Plan.op, node_alloc_self]
    rfl
  have hinputs : (p.alloc f.node).inputs p.nextId = f.inputs := by
    rw [Plan.inputs, node_alloc_self]
    rfl
  rw [f.shape.columnCount_eq, columns, length_columnsOf]
  refine ((f.ordered_alloc hordered hroot).columnCount_eq (by simp)).trans ?_
  rw [hlayout, hinputs]
  exact congrArg sum (map_congr_left fun i hi =>
    hordered.columnCount_alloc _ i (f.inputs_subset hp hroot hi))

/-! ### What a node that is left sees -/

omit hp hroot hjoin in
theorem tail_joins_subset : f.joins.tail ⊆ f.below := by
  have holds := f.olds_eq
  cases hfilter : f.filter with
  | none =>
      rw [hfilter, Option.toList_none, nil_append] at holds
      rw [holds]
      exact fun x hx => hx
  | some filter =>
      rw [hfilter, Option.toList_some, singleton_append, cons.injEq] at holds
      rw [holds.2]
      exact fun x hx => mem_of_mem_tail hx

omit hp hroot hjoin in
theorem isJoin_moved {x : NodeId} (hx : x ∈ f.pre ++ f.post) :
    (f.moved.op x).isJoin = (p.op x).isJoin := by
  rw [Plan.op, f.node_moved, if_pos hx]
  exact Operator.isJoin_mapExprs _ _

omit hjoin in
/-- A node that is left, and does not read the top of the chain directly, sees nothing else of the
chain. -/
theorem not_mem_below_of_reads {x y : NodeId} (hx : x ∈ f.pre ++ f.post) (hleft : x ∉ f.below)
    (hsees : f.top ∈ p.inputs x → (p.op x).isJoin = true) (hy : y ∈ p.reads x) :
    y ∉ f.below := by
  have hordered := hp.arranged.toOrdered
  intro hbelow
  have hunread : ∀ o ∈ f.below, o ∉ p.inputs x := fun o ho hread =>
    hleft (f.mem_below_of_reads hordered hroot hx ho hread)
  cases hxJoin : (p.op x).isJoin with
  | true => exact hunread y hbelow (reads_of_join hxJoin ▸ hy)
  | false =>
      obtain ⟨i, hi, hy⟩ := (mem_reads_of_not_join hxJoin).mp hy
      have hiOrder : i ∈ p.order := hordered.mem_of_input (f.mem_order.mpr (.inr hx)) hi
      cases hiJoin : (p.op i).isJoin with
      | false =>
          rw [exposed_of_not_join hiJoin, mem_singleton] at hy
          exact hunread y hbelow (hy ▸ hi)
      | true =>
          rw [exposed_of_join hiJoin] at hy
          rcases f.mem_order.mp hiOrder with rfl | hiLeft
          · rw [hsees hi] at hxJoin
            cases hxJoin
          · exact hunread i (f.mem_below_of_reads hordered hroot hiLeft hbelow hy) hi

end

/-- A reference of a node that is left. -/
def movedColumn (x : NodeId) (c : ColumnRef) : ColumnRef :=
  let c := redirectedColumn f.joins.tail f.topJoin c
  Result.valueOr c (redirectColumn f.top p.nextId none (f.moved.standIns x f.top p.nextId) c)

/-- The same column, of the new node if it was one of the top. -/
def replacedColumn : ColumnRef → ColumnRef := ColumnRef.replaced f.top p.nextId

/-- What refers to the top itself finds the column at its position. -/
theorem redirectColumn_top {i : Nat} (hi : i < f.columns.length) :
    Result.valueOr ⟨f.top, i⟩ (redirectColumn f.top p.nextId none f.columns ⟨f.top, i⟩) =
      f.columns[i] := by
  rw [redirectColumn, if_pos rfl]
  change Result.valueOr _ (Result.ofOption _ f.columns[i]?) = _
  rw [getElem?_eq_getElem hi]
  rfl

section

variable (hp : p.WellFormed) (hroot : root ∈ p.order) (hjoin : p.isBinaryJoin f.topJoin = true)
  {x : NodeId} (hx : x ∈ f.pre ++ f.post)
include hp hroot hjoin hx

theorem movedColumn_of_sees (hleft : x ∉ f.below)
    (hsees : f.top ∈ p.inputs x → (p.op x).isJoin = true) {c : ColumnRef} (hc : c ∈ (p.op x).columns) :
    f.movedColumn x c = f.replacedColumn c := by
  have hordered := hp.arranged.toOrdered
  obtain ⟨hread, hlt⟩ := hp.reads_of_mem (f.mem_order.mpr (.inr hx)) hc
  have htail : c.source ∉ f.joins.tail := fun hmem =>
    f.not_mem_below_of_reads hp hroot hx hleft hsees hread (f.tail_joins_subset hmem)
  have hstand : f.moved.standIns x f.top p.nextId = ColumnRef.range p.nextId f.columns.length := by
    have hcond : ((f.moved.inputs x).contains f.top && !(f.moved.op x).isJoin) = false := by
      rw [f.inputs_moved hordered hx, f.isJoin_moved hx]
      by_cases hmem : f.top ∈ p.inputs x
      · rw [hsees hmem, Bool.not_true, Bool.and_false]
      · rw [Bool.and_eq_false_imp]
        exact fun h => absurd (contains_iff_mem.mp h) hmem
    rw [standIns, hcond, if_neg Bool.false_ne_true, columnsOf, flatMap_singleton,
      f.columnCount_moved_nextId hp hroot]
  rw [movedColumn, redirectedColumn, if_neg htail, hstand, replacedColumn, ColumnRef.replaced]
  by_cases htop : c.source = f.top
  · rw [htop, f.columnCount_top hp hroot hjoin] at hlt
    have hget : (ColumnRef.range p.nextId f.columns.length)[c.index]? =
        some ⟨p.nextId, c.index⟩ := ColumnRef.getElem?_range.mpr ⟨hlt, rfl⟩
    rw [redirectColumn, if_pos htop, htop, NodeId.replaced_self]
    change Result.valueOr c (Result.ofOption _ _) = _
    rw [hget]
    rfl
  · rw [redirectColumn_of_ne htop, NodeId.replaced_of_ne _ htop]
    rfl

omit hx in
/-- The columns of the topmost join stay at their positions. -/
theorem idxOf_topJoin (hdistinct : f.inputs.Nodup) : ∀ c ∈ p.columnsOf (p.inputs f.topJoin),
    f.columns.idxOf (chainColumn f.joins f.columns c) =
      (p.columnsOf (p.inputs f.topJoin)).idxOf c := by
  obtain ⟨levels, hlevels⟩ := f.exists_madeOf hp hroot hjoin
  have hapart := f.apart hp hroot hdistinct hlevels
  obtain ⟨below, hbelow⟩ := f.chain.chain.exists_cons
  obtain ⟨left, right, j, levels₀, -, hinputs, hchain, hpush⟩ :=
    (hbelow ▸ hlevels.leveled).exists_level
  rw [hinputs]
  refine hchain.idxOf_level hapart hp.arranged.toOrdered ?_ (fun y hy => ?_) ?_
  · exact hp.arranged.mem_of_input (f.topJoin_mem hp hroot) (by simp [hinputs])
  · rw [hbelow]
    exact mem_cons_of_mem _ hy
  · rw [hpush]
    exact prefix_refl _

section

variable (hread : f.top ∈ p.inputs x) (hxJoin : (p.op x).isJoin = false)
include hread hxJoin

omit hjoin in
theorem standIns_of_reads : f.moved.standIns x f.top p.nextId = f.columns := by
  have hordered := hp.arranged.toOrdered
  have hcond : ((f.moved.inputs x).contains f.top && !(f.moved.op x).isJoin) = true := by
    rw [f.inputs_moved hordered hx, f.isJoin_moved hx, hxJoin, contains_iff_mem.mpr hread]
    rfl
  have hnode := f.node_nextId hordered
  have hexposed : f.moved.exposed p.nextId = f.inputs := by
    rw [exposed_of_join (by rw [Plan.op, hnode]; rfl), Plan.inputs, hnode]
    rfl
  rw [standIns, hcond, if_pos rfl, hexposed, columns, columnsOf, columnsOf]
  exact flatMap_congr fun i hi => by rw [f.columnCount_moved_eq hp (f.inputs_subset hp hroot hi)]

omit hroot hjoin in
theorem inputs_of_reads {c : ColumnRef} (hc : c ∈ (p.op x).columns) : p.inputs x = [f.top] := by
  obtain ⟨i, hi⟩ := Arity.exactly_one_admits (Operator.arity_of_mem_columns hc hxJoin ▸
    hp.arranged.arity x (f.mem_order.mpr (.inr hx)))
  rw [hi, mem_singleton] at hread
  rw [hi, hread]

omit hroot hjoin in
theorem source_of_reads {c : ColumnRef} (hc : c ∈ (p.op x).columns) :
    c.source ∈ p.exposed f.top ∧ c.index < p.columnCount c.source := by
  have hsource := hp.reads_of_mem (f.mem_order.mpr (.inr hx)) hc
  rwa [reads_of_not_join hxJoin, f.inputs_of_reads hp hx hread hxJoin hc, flatMap_singleton]
    at hsource

theorem index_of_reads {c : ColumnRef} (hc : c ∈ (p.op x).columns) :
    c.index < f.columns.length := by
  obtain ⟨hsource, hlt⟩ := f.source_of_reads hp hx hread hxJoin hc
  rw [← f.columnCount_top hp hroot hjoin,
    hp.arranged.columnCount_eq_sum_exposed (f.mem_order.mpr (.inl rfl))]
  exact Nat.lt_of_lt_of_le hlt (le_sum_of_mem (mem_map_of_mem hsource))

/-- A reference of a node that reads the topmost join is resolved like those of the chain. -/
theorem movedColumn_of_reads_join (hfilter : f.filter = none) {c : ColumnRef}
    (hc : c ∈ (p.op x).columns) :
    f.movedColumn x c = chainColumn f.joins f.columns c ∧ c.source ∈ p.inputs f.topJoin := by
  have htop : f.top = f.topJoin := by rw [top, hfilter, Option.getD_none]
  have hindex := f.index_of_reads hp hroot hjoin hx hread hxJoin hc
  have hsource := (f.source_of_reads hp hx hread hxJoin hc).1
  rw [htop, exposed_of_join (isJoin_of_isBinaryJoin hjoin)] at hsource
  have hne : c.source ≠ f.topJoin := fun h =>
    hp.arranged.not_mem_inputs_self (f.topJoin_mem hp hroot) (h ▸ hsource)
  obtain ⟨below, hbelow⟩ := f.chain.chain.exists_cons
  refine ⟨?_, hsource⟩
  rw [movedColumn, f.standIns_of_reads hp hroot hx hread hxJoin]
  by_cases hlower : c.source ∈ f.joins.tail
  · rw [redirectedColumn, if_pos hlower, chainColumn, if_pos (mem_of_mem_tail hlower),
      getElem?_eq_getElem hindex, Option.getD_some, ← f.redirectColumn_top hindex, htop]
  · have hnot : c.source ∉ f.joins := by
      rw [hbelow] at hlower ⊢
      exact fun hmem => (mem_cons.mp hmem).elim hne hlower
    rw [redirectedColumn, if_neg hlower, htop, redirectColumn_of_ne hne, chainColumn, if_neg hnot]
    rfl

/-- A reference of a node that reads the filter is one to the column at its position. -/
theorem movedColumn_of_reads_filter (hfilter : f.filter = some root) {c : ColumnRef}
    (hc : c ∈ (p.op x).columns) :
    ∃ hindex : c.index < f.columns.length, f.movedColumn x c = f.columns[c.index] ∧
      p.exposed f.top = [f.top] ∧ c.source = f.top := by
  have hordered := hp.arranged.toOrdered
  have htop : f.top = root := by rw [top, hfilter, Option.getD_some]
  obtain ⟨-, hop, -, -⟩ := f.chain.of_filter hfilter
  obtain ⟨g, hg⟩ := isFilter_iff.mp hop
  have hexposed : p.exposed f.top = [f.top] := exposed_of_not_join (by rw [htop, hg]; rfl)
  have hsource := (f.source_of_reads hp hx hread hxJoin hc).1
  rw [hexposed, mem_singleton] at hsource
  have hnot : f.top ∉ f.joins.tail := fun hmem => by
    have hlist := f.chain.pairwise hordered hroot
    rw [f.olds_eq] at hlist
    exact ne_of_pair hordered.nodup (rel_of_pairwise_cons hlist (f.tail_joins_subset hmem)) rfl
  have hindex := f.index_of_reads hp hroot hjoin hx hread hxJoin hc
  refine ⟨hindex, ?_, hexposed, hsource⟩
  have hself : c = ⟨f.top, c.index⟩ := by rw [← hsource]
  rw [movedColumn, f.standIns_of_reads hp hroot hx hread hxJoin, redirectedColumn,
    if_neg (hsource ▸ hnot), ← f.redirectColumn_top hindex, ← hself]

/-- A reference of a node that reads the top becomes one to a column of the flattened inputs. -/
theorem movedColumn_mem {c : ColumnRef} (hc : c ∈ (p.op x).columns) :
    f.movedColumn x c ∈ f.columns := by
  cases hfilter : f.filter with
  | none =>
      obtain ⟨hmoved, hsource⟩ :=
        f.movedColumn_of_reads_join hp hroot hjoin hx hread hxJoin hfilter hc
      obtain ⟨levels, hlevels⟩ := f.exists_madeOf hp hroot hjoin
      obtain ⟨below, hbelow⟩ := f.chain.chain.exists_cons
      rw [hmoved]
      refine f.chainColumn_mem hp hroot hjoin ?_ (f.source_of_reads hp hx hread hxJoin hc).2
      rw [hlevels.inputs_eq]
      exact hlevels.leveled.mem_of_inputs (hbelow ▸ mem_cons_self) hsource
  | some filter =>
      obtain ⟨rfl, -⟩ := f.chain.of_filter hfilter
      obtain ⟨hindex, hmoved, -⟩ :=
        f.movedColumn_of_reads_filter hp hroot hjoin hx hread hxJoin hfilter hc
      exact hmoved ▸ getElem_mem hindex

/-- If the flattened inputs are distinct, it stays at its position. -/
theorem idxOf_of_reads (hdistinct : f.inputs.Nodup) {c : ColumnRef} (hc : c ∈ (p.op x).columns) :
    f.columns.idxOf (f.movedColumn x c) = (p.columnsOf (p.exposed f.top)).idxOf c := by
  have hmem := mem_columnsOf.mpr (f.source_of_reads hp hx hread hxJoin hc)
  cases hfilter : f.filter with
  | none =>
      have htop : f.top = f.topJoin := by rw [top, hfilter, Option.getD_none]
      obtain ⟨hmoved, -⟩ := f.movedColumn_of_reads_join hp hroot hjoin hx hread hxJoin hfilter hc
      rw [htop, exposed_of_join (isJoin_of_isBinaryJoin hjoin)] at hmem ⊢
      rw [hmoved, f.idxOf_topJoin hp hroot hjoin hdistinct c hmem]
  | some filter =>
      obtain ⟨rfl, -⟩ := f.chain.of_filter hfilter
      obtain ⟨hindex, hmoved, hexposed, hsource⟩ :=
        f.movedColumn_of_reads_filter hp hroot hjoin hx hread hxJoin hfilter hc
      have hself : c = ⟨f.top, c.index⟩ := by rw [← hsource]
      have hnodup : f.columns.Nodup := nodup_columnsOf hdistinct
      have hlast : (p.columnsOf [f.top]).idxOf ⟨f.top, c.index⟩ = c.index :=
        idxOf_columnsOf_cons (hsource ▸ (mem_columnsOf.mp hmem).2)
      rw [hmoved, hnodup.idxOf_getElem, hexposed, ← hlast, ← hself]

end

end

end NewNode

end Plan

end QueryPlan
