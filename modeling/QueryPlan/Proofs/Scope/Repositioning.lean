import QueryPlan.Proofs.Scope.Bypass
/-!
# QueryPlan.Proofs.Scope.Repositioning

**Columns that stand where others stood.** When a node comes to read the input of a node that it
read, and both show the same columns, its references name the columns at the places of the old ones
(`Plan.repositioned`). This holds for every reader, whether it sees the old node directly or through
a join (`Lowered.node_eq`), so it is all that has to be known of a pass that takes out filters or
sorts. Repositioning composes over the steps of a run (`Plan.repositioned_trans`), as long as no
join lists one node twice (`Plan.Unambiguous`): then a place of a scope is known from the column
there.
-/

namespace QueryPlan

open List

/-- The node that reads other nodes, and refers to other columns. -/
def Node.reread (σ : NodeId → NodeId) (φ : ColumnRef → ColumnRef) (n : Node) : Node :=
  { n with
    inputs := n.inputs.map σ
    op := n.op.mapExprs (Expr.mapColumns φ) }

namespace Node

variable {σ τ : NodeId → NodeId} {φ ψ : ColumnRef → ColumnRef} {n : Node}

theorem reread_congr (hinputs : ∀ i ∈ n.inputs, σ i = τ i)
    (hcolumns : ∀ c ∈ n.op.columns, φ c = ψ c) : n.reread σ φ = n.reread τ ψ := by
  have hop : n.op.mapExprs (Expr.mapColumns φ) = n.op.mapExprs (Expr.mapColumns ψ) :=
    Operator.mapExprs_congr fun e he => Expr.mapColumns_congr fun c hc =>
      hcolumns c (Operator.mem_columns.mpr ⟨e, he, hc⟩)
  rw [reread, reread, map_congr_left hinputs, hop]

/-- A node that reads the same nodes and refers to the same columns is the same. -/
theorem reread_eq_self (hinputs : ∀ i ∈ n.inputs, σ i = i)
    (hcolumns : ∀ c ∈ n.op.columns, φ c = c) : n.reread σ φ = n := by
  have hid : Expr.mapColumns (fun c => c) = fun e => e := funext Expr.mapColumns_id
  rw [reread_congr (τ := fun i => i) (ψ := fun c => c) hinputs hcolumns, reread, hid,
    Operator.mapExprs_id, map_id']

end Node

namespace Plan

variable {p q r : Plan} {id input n x y : NodeId} {c : ColumnRef} {changed : List NodeId}

/-! ### Plans whose references are in sight -/

/-- A plan in whose live order every node stands behind its inputs, and in which expressions refer
only to columns that their node can see. -/
structure Scoped (p : Plan) : Prop where
  arranged : p.Arranged p.order
  inScope : ∀ id ∈ p.order, ∀ c ∈ (p.op id).columns,
    ∃ columns, p.scope id = .ok columns ∧ c ∈ columns

theorem WellFormed.toScoped (h : p.WellFormed) : p.Scoped := ⟨h.arranged, h.inScope⟩

/-- Besides, no join lists one node twice. -/
structure Unambiguous (p : Plan) : Prop extends Scoped p where
  distinct : ∀ id ∈ p.order, (p.op id).isJoin = true → (p.inputs id).Nodup

theorem scoped_of_reads (arranged : p.Arranged p.order)
    (reads : ∀ id ∈ p.order, ∀ c ∈ (p.op id).columns,
      c.source ∈ p.reads id ∧ c.index < p.columnCount c.source) : p.Scoped where
  arranged := arranged
  inScope id hid c hc := (arranged.mem_scope_iff hid hc).mpr (reads id hid c hc)

/-- A node sees as many columns as its inputs have. -/
theorem Arranged.length_columnsOf_reads {l : List NodeId} (h : p.Arranged l) (hx : x ∈ l) :
    (p.columnsOf (p.reads x)).length = ((p.inputs x).map p.columnCount).sum := by
  rw [length_columnsOf]
  cases hjoin : (p.op x).isJoin with
  | true => rw [reads_of_join hjoin]
  | false =>
      have hexposed : ∀ i ∈ p.inputs x, ((p.exposed i).map p.columnCount).sum = p.columnCount i :=
        fun i hi => (h.columnCount_eq_sum_exposed (h.mem_of_input hx hi)).symm
      rw [reads_of_not_join hjoin, map_flatMap, flatMap_def, sum_flatten, map_map]
      exact congrArg sum (map_congr_left hexposed)

namespace Scoped

variable (h : p.Scoped)
include h

theorem nodup : p.order.Nodup := h.arranged.nodup

theorem inArena (hx : x ∈ p.order) : x.index < p.arena.size := h.arranged.inArena x hx

/-- References name columns of the nodes that their node reads. -/
theorem mem_columnsOf (hx : x ∈ p.order) (hc : c ∈ (p.op x).columns) :
    c ∈ p.columnsOf (p.reads x) :=
  Plan.mem_columnsOf.mpr ((h.arranged.mem_scope_iff hx hc).mp (h.inScope x hx c hc))

theorem idxOf_lt (hx : x ∈ p.order) (hc : c ∈ (p.op x).columns) :
    (p.columnsOf (p.reads x)).idxOf c < (p.columnsOf (p.reads x)).length :=
  idxOf_lt_length_of_mem (h.mem_columnsOf hx hc)

/-- Nodes may leave a plan if nothing that stays reads them. -/
theorem remove (hid : ∀ n ∈ p.order, n ≠ id → id ∉ p.inputs n) : (p.remove id).Scoped := by
  have hshape : SameShape p (p.remove id) := .of_arena_eq rfl
  refine scoped_of_reads ((h.arranged.filter fun n hn hne i hi => ?_).of_sameShape hshape) ?_
  · rw [bne_iff_ne] at hne ⊢
    rintro rfl
    exact hid n hn hne hi
  · intro x hx c hc
    rw [hshape.reads_eq, hshape.columnCount_eq]
    exact Plan.mem_columnsOf.mp (h.mem_columnsOf (mem_filter.mp hx).1 hc)

/-- A node may get another operator of the same layout that refers to columns in sight. -/
theorem setOp (hid : id ∈ p.order) {op : Operator} (hlayout : op.layout = (p.op id).layout)
    (harity : op.arity = (p.op id).arity)
    (hcolumns : ∀ c ∈ op.columns, c ∈ p.columnsOf (p.reads id)) : (p.setOp id op).Scoped := by
  have hshape : SameShape p (p.setOp id op) := .setOp (h.inArena hid) hlayout harity
  refine scoped_of_reads (h.arranged.of_sameShape hshape) fun x hx c hc => ?_
  rw [hshape.reads_eq, hshape.columnCount_eq, ← Plan.mem_columnsOf]
  by_cases hxid : x = id
  · rw [hxid, op_setOp_self _ (h.inArena hid)] at hc
    exact hxid ▸ hcolumns c hc
  · rw [Plan.op, node_setOp_of_ne op hxid] at hc
    exact h.mem_columnsOf hx hc

end Scoped

namespace Unambiguous

variable (h : p.Unambiguous)
include h

/-- A node with references sees different nodes. -/
theorem nodup_reads (hx : x ∈ p.order) (hc : c ∈ (p.op x).columns) : (p.reads x).Nodup := by
  cases hjoin : (p.op x).isJoin with
  | true =>
      rw [reads_of_join hjoin]
      exact h.distinct x hx hjoin
  | false =>
      have harity := h.arranged.arity x hx
      rw [Operator.arity_of_mem_columns hc hjoin] at harity
      obtain ⟨i, hi⟩ := Arity.exactly_one_admits harity
      have hlive := h.arranged.mem_of_input hx (hi ▸ mem_singleton_self i)
      rw [reads_of_input hjoin hi]
      cases hiJoin : (p.op i).isJoin with
      | true => exact exposed_of_join hiJoin ▸ h.distinct i hlive hiJoin
      | false => exact exposed_of_not_join hiJoin ▸ nodup_singleton i

theorem remove (hid : ∀ n ∈ p.order, n ≠ id → id ∉ p.inputs n) : (p.remove id).Unambiguous :=
  ⟨h.toScoped.remove hid, fun x hx => h.distinct x (mem_filter.mp hx).1⟩

theorem setOp (hid : id ∈ p.order) {op : Operator} (hlayout : op.layout = (p.op id).layout)
    (harity : op.arity = (p.op id).arity)
    (hcolumns : ∀ c ∈ op.columns, c ∈ p.columnsOf (p.reads id)) : (p.setOp id op).Unambiguous := by
  refine ⟨h.toScoped.setOp hid hlayout harity hcolumns, fun x hx hjoin => ?_⟩
  rw [(SameShape.setOp (h.inArena hid) hlayout harity).isJoin_eq] at hjoin
  rw [inputs_setOp]
  exact h.distinct x hx hjoin

end Unambiguous

/-! ### Columns at the same place -/

/-- The column that a node of another plan sees where a node sees a column. -/
def repositioned (p q : Plan) (n x : NodeId) (c : ColumnRef) : ColumnRef :=
  ((q.columnsOf (q.reads x))[(p.columnsOf (p.reads n)).idxOf c]?).getD c

/-- Nodes that see the same columns see the same column at a place. -/
theorem repositioned_congr (hscope : q.columnsOf (q.reads x) = r.columnsOf (r.reads y)) :
    p.repositioned q n x = p.repositioned r n y := by
  funext c
  rw [repositioned, repositioned, hscope]

/-- A column stays if the same columns are seen. -/
theorem repositioned_of_eq (hscope : q.columnsOf (q.reads x) = p.columnsOf (p.reads n))
    (hc : c ∈ p.columnsOf (p.reads n)) : p.repositioned q n x c = c := by
  rw [repositioned, hscope, getElem?_idxOf hc]
  rfl

/-- If columns of other nodes are seen at the same places, a column becomes that of the other
node. -/
theorem repositioned_of_map {σ : NodeId → NodeId}
    (hscope : q.columnsOf (q.reads x) =
      (p.columnsOf (p.reads n)).map fun c => ⟨σ c.source, c.index⟩)
    (hc : c ∈ p.columnsOf (p.reads n)) : p.repositioned q n x c = ⟨σ c.source, c.index⟩ := by
  rw [repositioned, hscope, getElem?_map, getElem?_idxOf hc]
  rfl

section Places

variable (hlt : (p.columnsOf (p.reads n)).idxOf c < (q.columnsOf (q.reads x)).length)
include hlt

theorem repositioned_eq_getElem :
    p.repositioned q n x c = (q.columnsOf (q.reads x))[(p.columnsOf (p.reads n)).idxOf c] := by
  rw [repositioned, getElem?_eq_getElem hlt]
  rfl

/-- A repositioned column is one of those that the node sees. -/
theorem repositioned_mem : p.repositioned q n x c ∈ q.columnsOf (q.reads x) := by
  rw [repositioned_eq_getElem hlt]
  exact getElem_mem _

/-- The place of a repositioned column is that of the old one. -/
theorem idxOf_repositioned (hnodup : (q.reads x).Nodup) :
    (q.columnsOf (q.reads x)).idxOf (p.repositioned q n x c) =
      (p.columnsOf (p.reads n)).idxOf c := by
  rw [repositioned_eq_getElem hlt]
  exact (nodup_columnsOf hnodup).idxOf_getElem _ _

/-- Repositioned twice is repositioned once. -/
theorem repositioned_trans (hnodup : (q.reads x).Nodup)
    (hlt' : (p.columnsOf (p.reads n)).idxOf c < (r.columnsOf (r.reads y)).length) :
    q.repositioned r x y (p.repositioned q n x c) = p.repositioned r n y c := by
  have hidx := idxOf_repositioned hlt hnodup
  rw [repositioned_eq_getElem (hidx ▸ hlt'), repositioned_eq_getElem hlt']
  simp only [hidx]

end Places

/-! ### Reading the input of a node -/

/-- What reads a node reads its only input, which has the same columns. The nodes that are not
changed neither read the node nor see it. -/
structure Lowered (p r : Plan) (id input : NodeId) (changed : List NodeId) : Prop
    extends Redirection p r id input none changed where
  inSight : p.Scoped
  live : id ∈ p.order
  layout_eq : (p.op id).layout = .first
  inputs_id : p.inputs id = [input]
  changed_live : changed ⊆ p.order
  input_kept : input ∉ changed
  unseen : ∀ x ∈ p.order, x ∉ changed → id ∉ p.inputs x ∧ id ∉ p.reads x

namespace Lowered

variable (f : Lowered p r id input changed)
include f

theorem input_mem : input ∈ p.inputs id := f.inputs_id ▸ mem_singleton_self input

theorem input_live : input ∈ p.order := f.inSight.arranged.mem_of_input f.live f.input_mem

theorem input_ne : input ≠ id :=
  ne_of_pair f.inSight.nodup (f.inSight.arranged.before id f.live input f.input_mem)

theorem isJoin_id : (p.op id).isJoin = false := by
  by_contra hjoin
  have hall := (Operator.layout_eq_all_iff (p.op id)).mpr (by simpa using hjoin)
  rw [f.layout_eq] at hall
  cases hall

theorem columnCount_id : p.columnCount id = p.columnCount input :=
  f.inSight.arranged.columnCount_of_first f.live f.layout_eq f.inputs_id

theorem inputs_lowered (hx : x ∈ p.order) : r.inputs x = (p.inputs x).map (id.replaced input) := by
  by_cases hchanged : x ∈ changed
  · exact f.inputs_eq hchanged
  · rw [f.inputs_other hchanged, NodeId.map_replaced_of_not_mem input (f.unseen x hx hchanged).1]

theorem not_mem_inputs (hx : x ∈ p.order) : id ∉ r.inputs x := by
  rw [f.inputs_lowered hx]
  intro hid
  obtain ⟨i, -, hi⟩ := mem_map.mp hid
  by_cases hiid : i = id
  · rw [hiid, NodeId.replaced_self] at hi
    exact f.input_ne hi
  · rw [NodeId.replaced_of_ne _ hiid] at hi
    exact hiid hi

/-- The nodes stay behind their inputs. -/
theorem arranged_lowered : r.Arranged p.order :=
  f.arranged f.inSight.arranged fun n hn hread =>
    pair_sublist_trans f.inSight.nodup (f.inSight.arranged.before id f.live input f.input_mem)
      (f.inSight.arranged.before n (f.changed_live hn) id hread)

theorem columnCount_lowered (hx : x ∈ p.order) : r.columnCount x = p.columnCount x :=
  f.columnCount_of_eq f.inSight.arranged f.arranged_lowered f.columnCount_id.symm x hx

theorem columnCount_replaced (hx : x ∈ p.order) :
    r.columnCount (id.replaced input x) = p.columnCount x := by
  by_cases hxid : x = id
  · rw [hxid, NodeId.replaced_self, f.columnCount_lowered f.input_live, f.columnCount_id]
  · rw [NodeId.replaced_of_ne _ hxid, f.columnCount_lowered hx]

theorem columnCounts_lowered (hx : x ∈ p.order) :
    (r.inputs x).map r.columnCount = (p.inputs x).map p.columnCount := by
  rw [f.inputs_lowered hx, map_map]
  exact map_congr_left fun i hi =>
    f.columnCount_replaced (f.inSight.arranged.mem_of_input hx hi)

/-! #### What is seen -/

/-- Columns of nodes that are not changed are the same. -/
theorem columnsOf_exposed_input :
    r.columnsOf (r.exposed input) = p.columnsOf (p.exposed input) := by
  rw [f.exposed_other f.input_kept, columnsOf, columnsOf]
  exact flatMap_congr fun i hi => by
    rw [f.columnCount_lowered (f.inSight.arranged.exposed_subset f.input_live hi)]

/-- What reads the node directly sees the columns of its input. -/
theorem columnsOf_direct (hx : x ∈ p.order) (hjoin : (p.op x).isJoin = false)
    (hinputs : p.inputs x = [id]) :
    p.columnsOf (p.reads x) = ColumnRef.range id (p.columnCount input) ∧
      r.columnsOf (r.reads x) = p.columnsOf (p.exposed input) := by
  refine ⟨?_, ?_⟩
  · rw [reads_of_input hjoin hinputs, exposed_of_not_join f.isJoin_id,
      columnsOf, flatMap_singleton, f.columnCount_id]
  · rw [reads_of_not_join ((f.op_isJoin x).trans hjoin), f.inputs_lowered hx, hinputs,
      map_singleton, NodeId.replaced_self, flatMap_singleton, f.columnsOf_exposed_input]

/-- What sees the node through a join, or not at all, sees the columns of the input in its place. -/
theorem columnsOf_indirect (hx : x ∈ p.order)
    (hindirect : (p.op x).isJoin = true ∨ id ∉ p.inputs x) :
    r.columnsOf (r.reads x) = (p.columnsOf (p.reads x)).map (ColumnRef.replaced id input) := by
  have hreads : r.reads x = (p.reads x).map (id.replaced input) := by
    refine reads_map (f.op_isJoin x) (f.inputs_lowered hx) fun hjoin i hi => ?_
    have hread := hindirect.resolve_left (by simp [hjoin])
    have hne : i ≠ id := fun heq => hread (heq ▸ hi)
    rw [NodeId.replaced_of_ne _ hne, exposed, exposed, f.op_isJoin]
    split
    · exact f.inputs_lowered (f.inSight.arranged.mem_of_input hx hi)
    · rw [map_singleton, NodeId.replaced_of_ne _ hne]
  rw [hreads]
  exact columnsOf_map fun i hi => f.columnCount_replaced (f.inSight.arranged.reads_subset hx hi)

omit f in
/-- A node with references reads the node directly, and nothing else, or sees it through a join. -/
theorem direct_or_indirect (h : p.Scoped) (hx : x ∈ p.order) (hc : c ∈ (p.op x).columns)
    (id : NodeId) : ((p.op x).isJoin = false ∧ p.inputs x = [id]) ∨
      ((p.op x).isJoin = true ∨ id ∉ p.inputs x) := by
  cases hjoin : (p.op x).isJoin with
  | true => exact .inr (.inl rfl)
  | false =>
      have harity := h.arranged.arity x hx
      rw [Operator.arity_of_mem_columns hc hjoin] at harity
      obtain ⟨i, hi⟩ := Arity.exactly_one_admits harity
      by_cases hid : i = id
      · exact .inl ⟨rfl, hid ▸ hi⟩
      · exact .inr (.inr (by simpa [hi] using Ne.symm hid))

/-- As many columns are seen as before. -/
theorem length_columnsOf_lowered (hx : x ∈ p.order) :
    (r.columnsOf (r.reads x)).length = (p.columnsOf (p.reads x)).length := by
  rw [f.arranged_lowered.length_columnsOf_reads hx, f.inSight.arranged.length_columnsOf_reads hx,
    f.columnCounts_lowered hx]

theorem idxOf_lt_lowered (hx : x ∈ p.order) (hc : c ∈ (p.op x).columns) :
    (p.columnsOf (p.reads x)).idxOf c < (r.columnsOf (r.reads x)).length :=
  f.length_columnsOf_lowered hx ▸ f.inSight.idxOf_lt hx hc

/-! #### References -/

/-- References name the columns at the places of the old ones. -/
theorem valueOr_redirectColumn (hx : x ∈ p.order) (hc : c ∈ (p.op x).columns) :
    Result.valueOr c (redirectColumn id input none (p.standIns x id input) c) =
      p.repositioned r x x c := by
  have hmem := f.inSight.mem_columnsOf hx hc
  have hcount := f.inSight.arranged.columnCount_eq_sum_exposed f.input_live
  rcases direct_or_indirect f.inSight hx hc id with ⟨hjoin, hinputs⟩ | hindirect
  · obtain ⟨hold, hnew⟩ := f.columnsOf_direct hx hjoin hinputs
    rw [hold] at hmem
    obtain ⟨hsource, hlt⟩ := ColumnRef.mem_range.mp hmem
    obtain ⟨source, index⟩ := c
    obtain rfl : source = id := hsource
    have hstand : p.standIns x source input = p.columnsOf (p.exposed input) := by
      rw [standIns, if_pos (by simp [hinputs, hjoin])]
    have hget : index < (p.columnsOf (p.exposed input)).length := by
      rwa [length_columnsOf, ← hcount]
    rw [redirectColumn, if_pos rfl, hstand, repositioned, hold, hnew, ColumnRef.idxOf_range hlt,
      mappedPosition, Result.bind_ok rfl, getElem?_eq_getElem hget]
    rfl
  · have hscope := f.columnsOf_indirect hx hindirect
    rw [repositioned_of_map hscope hmem]
    by_cases hsource : c.source = id
    · have hstand : p.standIns x id input = ColumnRef.range input (p.columnCount input) := by
        rw [standIns, if_neg, columnsOf, flatMap_singleton]
        rcases hindirect with hjoin | hread
        · simp [hjoin]
        · simp [hread]
      have hlt := (Plan.mem_columnsOf.mp hmem).2
      rw [hsource, f.columnCount_id] at hlt
      have hget : (ColumnRef.range input (p.columnCount input))[c.index]? =
          some ⟨input, c.index⟩ := ColumnRef.getElem?_range.mpr ⟨hlt, rfl⟩
      rw [redirectColumn, if_pos hsource, hstand, mappedPosition, Result.bind_ok rfl, hget, hsource,
        NodeId.replaced_self]
      rfl
    · rw [redirectColumn_of_ne hsource, NodeId.replaced_of_ne _ hsource]
      rfl

/-- Every node reads the input in place of the old node, and refers to the columns that stand
where the old ones stood. -/
theorem node_eq_reread (hx : x ∈ p.order) :
    r.node x = (p.node x).reread (id.replaced input) (p.repositioned r x x) := by
  by_cases hchanged : x ∈ changed
  · rw [f.node_eq x hchanged, Node.moved, Node.movedOp, if_neg (by simp), Node.reread]
    congr 1
    exact Operator.mapExprs_congr fun e he => Expr.mapColumns_congr fun c hc =>
      f.valueOr_redirectColumn hx (Operator.mem_columns.mpr ⟨e, he, hc⟩)
  · obtain ⟨hread, hsee⟩ := f.unseen x hx hchanged
    rw [f.node_other x hchanged]
    refine (Node.reread_eq_self (fun i hi => ?_) fun c hc => ?_).symm
    · exact NodeId.replaced_of_ne _ fun heq => hread (heq ▸ hi)
    · have hmem := f.inSight.mem_columnsOf hx hc
      rw [repositioned_of_map (f.columnsOf_indirect hx (.inr hread)) hmem, NodeId.replaced_of_ne]
      exact fun heq => hsee (heq ▸ (Plan.mem_columnsOf.mp hmem).1)

/-- A node that neither reads the old node nor sees it stays as it is. -/
theorem node_unseen (hx : x ∈ p.order) (hread : id ∉ p.inputs x) (hsee : id ∉ p.reads x) :
    r.node x = p.node x := by
  rw [f.node_eq_reread hx]
  refine Node.reread_eq_self (fun i hi => ?_) fun c hc => ?_
  · exact NodeId.replaced_of_ne _ fun heq => hread (heq ▸ hi)
  · have hmem := f.inSight.mem_columnsOf hx hc
    rw [repositioned_of_map (f.columnsOf_indirect hx (.inr hread)) hmem, NodeId.replaced_of_ne]
    exact fun heq => hsee (heq ▸ (Plan.mem_columnsOf.mp hmem).1)

theorem op_lowered (hx : x ∈ p.order) :
    r.op x = (p.op x).mapExprs (Expr.mapColumns (p.repositioned r x x)) :=
  congrArg Node.op (f.node_eq_reread hx)

/-- References stay in sight. -/
theorem scoped_lowered : r.Scoped := by
  have horder := f.order_eq
  refine scoped_of_reads (horder ▸ f.arranged_lowered) fun x hx c hc => ?_
  rw [horder] at hx
  rw [f.op_lowered hx, Operator.columns_mapExprs] at hc
  obtain ⟨d, hd, rfl⟩ := mem_map.mp hc
  exact Plan.mem_columnsOf.mp (repositioned_mem (f.idxOf_lt_lowered hx hd))

/-- The old node may leave. -/
theorem scoped_remove : (r.remove id).Scoped :=
  f.scoped_lowered.remove fun _ hn _ => f.not_mem_inputs (f.order_eq ▸ hn)

/-- No join comes to list a node twice, if none lists the old node and its input. -/
theorem unambiguous_lowered (h : p.Unambiguous)
    (hjoins : ∀ n ∈ p.order, (p.op n).isJoin = true → id ∈ p.inputs n → input ∉ p.inputs n) :
    r.Unambiguous := by
  refine ⟨f.scoped_lowered, fun x hx hjoin => ?_⟩
  rw [f.order_eq] at hx
  rw [f.op_isJoin] at hjoin
  rw [f.inputs_lowered hx]
  refine (h.distinct x hx hjoin).map_on fun a ha b hb hab => ?_
  by_contra hne
  unfold NodeId.replaced at hab
  have hread := hjoins x hx hjoin
  grind

end Lowered

/-- Nodes that see a node which shows the columns of its input may read that input. -/
theorem Scoped.lowered_ok (h : p.Scoped) (hid : id ∈ p.order)
    (hlayout : (p.op id).layout = .first) (hinputs : p.inputs id = [input])
    (hnodup : changed.Nodup) (hsub : changed ⊆ p.order) (hkept : input ∉ changed)
    (hunseen : ∀ x ∈ p.order, x ∉ changed → id ∉ p.inputs x ∧ id ∉ p.reads x) :
    ∃ r, changed.foldlM (fun p n => p.replaceInput n id input none) p = .ok r ∧
      Lowered p r id input changed := by
  obtain ⟨l, hsteady⟩ :=
    h.arranged.steady_to_input hid (hinputs ▸ mem_singleton_self input) changed
  have hloop : ∃ r, changed.foldlM (fun p n => p.replaceInput n id input none) p = .ok r ∧
      Redirection p r id input none changed := by
    refine foldlM_replaceInput_ok hnodup (fun n hn => h.inArena (hsub hn)) hsteady
      (fun n hn c hc hsource => ⟨c.index, rfl, ?_⟩) fun _ _ _ hsome => absurd hsome (by simp)
    have hlt := (Plan.mem_columnsOf.mp (h.mem_columnsOf (hsub hn) hc)).2
    rwa [hsource, h.arranged.columnCount_of_first hid hlayout hinputs] at hlt
  obtain ⟨r, hr, hred⟩ := hloop
  exact ⟨r, hr, { hred with
    inSight := h
    live := hid
    layout_eq := hlayout
    inputs_id := hinputs
    changed_live := hsub
    input_kept := hkept
    unseen := hunseen }⟩

/-- An input of a node does not see that node. -/
theorem Scoped.not_reads_of_input (h : p.Scoped) (hid : id ∈ p.order)
    (hinput : input ∈ p.inputs id) : id ∉ p.inputs input ∧ id ∉ p.reads input := by
  have hread := h.arranged.not_reads_of_input hid hinput
  refine ⟨hread, fun hsee => ?_⟩
  obtain ⟨i, hi, -, hsee⟩ := (mem_inputs_of_reads hsee).resolve_left hread
  have hlive := h.arranged.mem_of_input hid hinput
  refine not_pair_swap h.nodup (h.arranged.before id hid input hinput) ?_
  exact pair_sublist_trans h.nodup
    (h.arranged.before i (h.arranged.mem_of_input hlive hi) id hsee)
    (h.arranged.before input hlive i hi)

/-- A node that shows the columns of its input can be bypassed. -/
theorem Scoped.bypass_ok (h : p.Scoped) (hid : id ∈ p.order)
    (hlayout : (p.op id).layout = .first) (hinputs : p.inputs id = [input]) :
    ∃ r, p.bypass id none = .ok (r.remove id) ∧
      Lowered p r id input (p.order.filter fun n => n != input) := by
  have hinput : input ∈ p.inputs id := hinputs ▸ mem_singleton_self input
  have hunseen : ∀ x ∈ p.order, x ∉ (p.order.filter fun n => n != input) →
      id ∉ p.inputs x ∧ id ∉ p.reads x := by
    intro x hx hchanged
    obtain rfl : x = input := by simpa [hx] using hchanged
    exact h.not_reads_of_input hid hinput
  obtain ⟨r, hr, hlowered⟩ := h.lowered_ok hid hlayout hinputs (h.nodup.filter _)
    (filter_subset_self _) (by simp) hunseen
  refine ⟨r, ?_, hlowered⟩
  rw [bypass, Result.bind_ok (Node.singleInput_eq_ok.mpr hinputs)]
  exact Result.bind_ok hr

end Plan

end QueryPlan
