import QueryPlan.Proofs.Plan.Width
import Mathlib.Algebra.Order.BigOperators.Group.List
import Mathlib.Algebra.Order.Group.Nat
/-!
# QueryPlan.Proofs.Plan.WellFormed

**Well-formed plans.** In a well-formed plan the live order lists each node behind its inputs,
parallel lists are of one length, and every expression is bound to columns that its node can see
(`Plan.WellFormed`).

What a node can see is an output, so it carries the handles of a few other nodes (`Plan.reads`).
`WellFormed.reads_of_mem` and `Plan.wellFormed_of_reads` go back and forth between membership in
an output and a handle with a position below a width, which is what edits are reasoned about
with.
-/

namespace QueryPlan

open List

/-- An operator with expressions joins or takes one input. -/
theorem Operator.arity_of_mem_columns {op : Operator} {c : ColumnRef} (hc : c ∈ op.columns)
    (hop : op.isJoin = false) : op.arity = .exactly 1 := by
  cases op <;> simp_all [columns, exprs, arity, isJoin]

/-- An operator with positions takes one input. -/
theorem Operator.arity_of_mem_positions {op : Operator} {i : Nat} (hi : i ∈ op.positions) :
    op.arity = .exactly 1 := by
  cases op <;> simp_all [positions, arity]

namespace Plan

/-- The columns to which the expressions of a node may refer: its own output if it joins, else
the output of its only input. -/
def scope (p : Plan) (id : NodeId) : Result (List ColumnRef) :=
  if (p.op id).isJoin then p.output id
  else do p.output (← (p.node id).singleInput)

/-- The nodes whose handles the references of a node carry. -/
def reads (p : Plan) (id : NodeId) : List NodeId :=
  if (p.op id).isJoin then p.inputs id else (p.inputs id).flatMap p.exposed

/-- A plan in whose live order every node stands behind its inputs, and in which expressions
refer only to columns that their node can see. -/
structure WellFormed (p : Plan) : Prop where
  arranged : p.Arranged p.order
  fieldsMatch : ∀ id ∈ p.order, (p.op id).FieldsMatch
  /-- No positional reference is left. -/
  bound : ∀ id ∈ p.order, ∀ e ∈ (p.op id).exprs, e.hasPositional = false
  inScope : ∀ id ∈ p.order, ∀ c ∈ (p.op id).columns,
    ∃ columns, p.scope id = .ok columns ∧ c ∈ columns

variable {p : Plan} {l : List NodeId} {id : NodeId} {c : ColumnRef}

theorem reads_of_join (hid : (p.op id).isJoin = true) : p.reads id = p.inputs id := if_pos hid

theorem reads_of_not_join (hid : (p.op id).isJoin = false) :
    p.reads id = (p.inputs id).flatMap p.exposed := by
  simp [reads, hid]

theorem reads_of_input {i : NodeId} (hid : (p.op id).isJoin = false) (hinput : p.inputs id = [i]) :
    p.reads id = p.exposed i := by
  rw [reads_of_not_join hid, hinput, flatMap_singleton]

theorem SameShape.reads_eq {q : Plan} (h : SameShape p q) (id : NodeId) :
    q.reads id = p.reads id := by
  rw [reads, reads, h.isJoin_eq, h.inputs_eq, funext h.exposed_eq]

theorem SameShape.columnsOf_reads_eq {q : Plan} (h : SameShape p q) (id : NodeId) :
    q.columnsOf (q.reads id) = p.columnsOf (p.reads id) := by
  rw [h.columnsOf_eq, h.reads_eq]

/-- A node reads other nodes if its inputs, and what they expose, became other nodes. -/
theorem reads_map {q : Plan} {f : NodeId → NodeId} (hjoin : (q.op id).isJoin = (p.op id).isJoin)
    (hinputs : q.inputs id = (p.inputs id).map f)
    (hexposed : (p.op id).isJoin = false →
      ∀ i ∈ p.inputs id, q.exposed (f i) = (p.exposed i).map f) :
    q.reads id = (p.reads id).map f := by
  cases hid : (p.op id).isJoin with
  | true => rw [reads_of_join (hjoin.trans hid), reads_of_join hid, hinputs]
  | false =>
      rw [reads_of_not_join (hjoin.trans hid), reads_of_not_join hid, hinputs, flatMap_map,
        map_flatMap]
      exact flatMap_congr (hexposed hid)

/-- A node that does not join reads what one of its inputs exposes. -/
theorem mem_reads_of_not_join (hid : (p.op id).isJoin = false) {x : NodeId} :
    x ∈ p.reads id ↔ ∃ i ∈ p.inputs id, x ∈ p.exposed i := by
  rw [reads_of_not_join hid, mem_flatMap]

/-- What a node refers to without reading it is an input of a join that it reads. -/
theorem mem_inputs_of_reads {n x : NodeId} (hx : x ∈ p.reads n) :
    x ∈ p.inputs n ∨ ∃ i ∈ p.inputs n, (p.op i).isJoin ∧ x ∈ p.inputs i := by
  cases hjoin : (p.op n).isJoin with
  | true => exact .inl (reads_of_join hjoin ▸ hx)
  | false =>
      obtain ⟨i, hi, hx⟩ := (mem_reads_of_not_join hjoin).mp hx
      cases hjoinInput : (p.op i).isJoin with
      | true => exact .inr ⟨i, hi, hjoinInput, exposed_of_join hjoinInput ▸ hx⟩
      | false =>
          rw [exposed_of_not_join hjoinInput, mem_singleton] at hx
          exact .inl (hx ▸ hi)

theorem Arranged.scope_eq (h : p.Arranged l) (hid : id ∈ l) (hc : c ∈ (p.op id).columns) :
    p.scope id = .ok (p.columnsOf (p.reads id)) := by
  cases hop : (p.op id).isJoin with
  | true =>
      rw [scope, if_pos hop, h.output_eq hid, exposed_of_join hop, reads_of_join hop]
  | false =>
      have harity := h.arity id hid
      rw [Operator.arity_of_mem_columns hc hop] at harity
      obtain ⟨i, hi⟩ := Arity.exactly_one_admits harity
      have hil : i ∈ l := h.mem_of_input hid (hi ▸ mem_singleton_self i)
      rw [scope, if_neg (by simp [hop]), Result.bind_ok (Node.singleInput_eq_ok.mpr hi),
        h.output_eq hil, reads_of_input hop hi]

/-- A node sees the columns of the nodes that it reads. -/
theorem Arranged.mem_scope_iff (h : p.Arranged l) (hid : id ∈ l) (hc : c ∈ (p.op id).columns) :
    (∃ columns, p.scope id = .ok columns ∧ c ∈ columns) ↔
      c.source ∈ p.reads id ∧ c.index < p.columnCount c.source := by
  rw [h.scope_eq hid hc, ← mem_columnsOf]
  constructor
  · rintro ⟨_, ⟨⟩, hmem⟩
    exact hmem
  · exact fun hmem => ⟨_, rfl, hmem⟩

/-- What arranged nodes read is arranged as well. -/
theorem Arranged.reads_subset (h : p.Arranged l) (hid : id ∈ l) {x : NodeId}
    (hx : x ∈ p.reads id) : x ∈ l := by
  cases hop : (p.op id).isJoin with
  | true =>
      rw [reads_of_join hop] at hx
      exact h.mem_of_input hid hx
  | false =>
      obtain ⟨i, hi, hx⟩ := (mem_reads_of_not_join hop).mp hx
      exact h.exposed_subset (h.mem_of_input hid hi) hx

namespace WellFormed

theorem reads_of_mem (h : p.WellFormed) (hid : id ∈ p.order) (hc : c ∈ (p.op id).columns) :
    c.source ∈ p.reads id ∧ c.index < p.columnCount c.source :=
  (h.arranged.mem_scope_iff hid hc).mp (h.inScope id hid c hc)

/-- What reads a node that does not join refers to that. -/
theorem source_eq (h : p.WellFormed) {i : NodeId} (hid : id ∈ p.order)
    (hop : (p.op id).isJoin = false) (hinput : p.inputs id = [i]) (hi : (p.op i).isJoin = false)
    (hc : c ∈ (p.op id).columns) : c.source = i := by
  have hread := (h.reads_of_mem hid hc).1
  rwa [reads_of_input hop hinput, exposed_of_not_join hi, mem_singleton] at hread

theorem nodup (h : p.WellFormed) : p.order.Nodup := h.arranged.nodup

theorem inArena (h : p.WellFormed) (hid : id ∈ p.order) : id.index < p.arena.size :=
  h.arranged.inArena id hid

/-- The input of a node that takes one input is live. -/
theorem input_of_arity_one (h : p.WellFormed) (hid : id ∈ p.order)
    (hop : (p.op id).arity = .exactly 1) : ∃ i, p.inputs id = [i] ∧ [i, id] <+ p.order := by
  have harity := h.arranged.arity id hid
  rw [hop] at harity
  obtain ⟨i, hi⟩ := Arity.exactly_one_admits harity
  exact ⟨i, hi, h.arranged.before id hid i (hi ▸ mem_singleton_self i)⟩

end WellFormed

/-- Plans are well-formed whose references carry handles that their node reads and positions
below a width. -/
theorem wellFormed_of_reads (arranged : p.Arranged p.order)
    (fieldsMatch : ∀ id ∈ p.order, (p.op id).FieldsMatch)
    (bound : ∀ id ∈ p.order, ∀ e ∈ (p.op id).exprs, e.hasPositional = false)
    (reads : ∀ id ∈ p.order, ∀ c ∈ (p.op id).columns,
      c.source ∈ p.reads id ∧ c.index < p.columnCount c.source) : p.WellFormed where
  arranged := arranged
  fieldsMatch := fieldsMatch
  bound := bound
  inScope id hid c hc := (arranged.mem_scope_iff hid hc).mpr (reads id hid c hc)

/-! ### Edits of well-formed plans -/

/-- A plan of the same shape is well-formed if the expressions of its nodes are. -/
theorem WellFormed.of_sameShape {q : Plan} (h : p.WellFormed) (hq : SameShape p q)
    (horder : q.order = p.order) (hfields : ∀ id ∈ p.order, (q.op id).FieldsMatch)
    (hbound : ∀ id ∈ p.order, ∀ e ∈ (q.op id).exprs, e.hasPositional = false)
    (hreads : ∀ id ∈ p.order, ∀ c ∈ (q.op id).columns,
      c.source ∈ p.reads id ∧ c.index < p.columnCount c.source) : q.WellFormed := by
  refine wellFormed_of_reads ?_ ?_ ?_ ?_ <;> rw [horder]
  · exact h.arranged.of_sameShape hq
  · exact hfields
  · exact hbound
  · intro id hid c hc
    rw [hq.reads_eq, hq.columnCount_eq]
    exact hreads id hid c hc

/-- A node may get another operator of the same layout that refers to columns in sight. -/
theorem WellFormed.setOp (h : p.WellFormed) (hid : id ∈ p.order) {op : Operator}
    (hlayout : op.layout = (p.op id).layout) (harity : op.arity = (p.op id).arity)
    (hfields : op.FieldsMatch) (hbound : ∀ e ∈ op.exprs, e.hasPositional = false)
    (hreads : ∀ c ∈ op.columns, c.source ∈ p.reads id ∧ c.index < p.columnCount c.source) :
    (p.setOp id op).WellFormed := by
  have hother : ∀ x, x ≠ id → (p.setOp id op).op x = p.op x := fun x hx => by
    rw [Plan.op, node_setOp_of_ne op hx]
    rfl
  refine h.of_sameShape (.setOp (h.inArena hid) hlayout harity) rfl ?_ ?_ ?_ <;> intro x hx <;>
    by_cases hxid : x = id
  · rwa [hxid, op_setOp_self _ (h.inArena hid)]
  · rw [hother x hxid]
    exact h.fieldsMatch x hx
  · rwa [hxid, op_setOp_self _ (h.inArena hid)]
  · rw [hother x hxid]
    exact h.bound x hx
  · rwa [hxid, op_setOp_self _ (h.inArena hid)]
  · rw [hother x hxid]
    exact fun c => h.reads_of_mem hx

theorem width_mono {layout : Layout} {as bs : List Nat} (h : List.Forall₂ (· ≤ ·) as bs) :
    layout.width as ≤ layout.width bs := by
  cases layout with
  | own width names => exact Nat.le_refl _
  | first =>
      cases h with
      | nil => exact Nat.le_refl _
      | cons hab _ => exact hab
  | all => exact h.sum_le_sum

/-- A node with columns of its own may get more of them. -/
theorem WellFormed.widen (h : p.WellFormed) (hid : id ∈ p.order) {op : Operator}
    {width width' : Nat} {names names' : List String}
    (hlayout : (p.op id).layout = .own width names) (hlayout' : op.layout = .own width' names')
    (hle : width ≤ width') (harity : op.arity = (p.op id).arity)
    (hfields : op.FieldsMatch) (hbound : ∀ e ∈ op.exprs, e.hasPositional = false)
    (hreads : ∀ c ∈ op.columns, c.source ∈ p.reads id ∧ c.index < p.columnCount c.source) :
    (p.setOp id op).WellFormed := by
  have hother : ∀ x, x ≠ id → (p.setOp id op).op x = p.op x := fun x hx => by
    rw [Plan.op, node_setOp_of_ne op hx]
    rfl
  have hself : (p.setOp id op).op id = op := op_setOp_self _ (h.inArena hid)
  have hjoin : ∀ x, ((p.setOp id op).op x).isJoin = (p.op x).isJoin := by
    intro x
    by_cases hx : x = id
    · rw [hx, hself, Bool.eq_iff_iff, ← Operator.layout_eq_all_iff, ← Operator.layout_eq_all_iff,
        hlayout, hlayout']
      simp
    · rw [hother x hx]
  have harranged : (p.setOp id op).Arranged p.order := by
    refine h.arranged.congr (by simp) (fun x _ => ?_) fun x _ => by simp
    by_cases hx : x = id
    · rw [hx, hself, harity]
    · rw [hother x hx]
  have hcount : ∀ x ∈ p.order, p.columnCount x ≤ (p.setOp id op).columnCount x := by
    refine h.arranged.induction fun x hx ih => ?_
    rw [h.arranged.columnCount_eq hx, harranged.columnCount_eq hx, inputs_setOp]
    by_cases hxid : x = id
    · rw [hxid, hself, hlayout, hlayout']
      exact hle
    · rw [hother x hxid]
      refine width_mono ?_
      rw [List.forall₂_map_left_iff, List.forall₂_map_right_iff, List.forall₂_same]
      exact ih
  have hreadsEq : ∀ x, (p.setOp id op).reads x = p.reads x := by
    have hexposed : ∀ x, (p.setOp id op).exposed x = p.exposed x := fun x => by
      rw [exposed, exposed, hjoin, inputs_setOp]
    intro x
    rw [reads, reads, hjoin, inputs_setOp, funext hexposed]
  have hwide : ∀ x ∈ p.order, ∀ c : ColumnRef, c.source ∈ p.reads x →
      c.index < p.columnCount c.source → c.index < (p.setOp id op).columnCount c.source :=
    fun x hx c hread hlt => Nat.lt_of_lt_of_le hlt (hcount _ (h.arranged.reads_subset hx hread))
  refine wellFormed_of_reads harranged ?_ ?_ ?_ <;> intro x hx <;> by_cases hxid : x = id
  · rwa [hxid, hself]
  · rw [hother x hxid]
    exact h.fieldsMatch x hx
  · rwa [hxid, hself]
  · rw [hother x hxid]
    exact h.bound x hx
  · intro c hc
    rw [hxid, hself] at hc
    rw [hreadsEq, hxid]
    exact ⟨(hreads c hc).1, hwide id hid c (hreads c hc).1 (hreads c hc).2⟩
  · intro c hc
    rw [hother x hxid] at hc
    obtain ⟨hread, hlt⟩ := h.reads_of_mem hx hc
    rw [hreadsEq]
    exact ⟨hread, hwide x hx c hread hlt⟩

/-- Nodes may leave a plan if nothing that stays reads them. -/
theorem WellFormed.filter (h : p.WellFormed) {keep : NodeId → Bool}
    (hkeep : ∀ id ∈ p.order, keep id → ∀ i ∈ p.inputs id, keep i) :
    ({ p with order := p.order.filter keep } : Plan).WellFormed := by
  have hshape : SameShape p { p with order := p.order.filter keep } := .of_arena_eq rfl
  refine wellFormed_of_reads ((h.arranged.filter hkeep).of_sameShape hshape) ?_ ?_ ?_ <;>
    intro id hid
  · exact h.fieldsMatch id (mem_filter.mp hid).1
  · exact h.bound id (mem_filter.mp hid).1
  · intro c hc
    rw [hshape.reads_eq, hshape.columnCount_eq]
    exact h.reads_of_mem (mem_filter.mp hid).1 hc

theorem WellFormed.remove (h : p.WellFormed) (hid : ∀ n ∈ p.order, n ≠ id → id ∉ p.inputs n) :
    (p.remove id).WellFormed := by
  refine h.filter fun n hn hne i hi => ?_
  rw [bne_iff_ne] at hne ⊢
  rintro rfl
  exact hid n hn hne hi

/-- A new node keeps what comes from the layouts of the others. -/
theorem Ordered.fold_alloc {α : Type} (leaf : α) (value : NodeId → Layout → List α → α)
    (h : p.Ordered l) (n : Node) :
    ∀ x ∈ l, (p.alloc n).fold leaf (fun id => value id ((p.alloc n).op id).layout) x =
      p.fold leaf (fun id => value id (p.op id).layout) x := by
  have hsame : ∀ x ∈ l, (p.alloc n).node x = p.node x := fun x hx =>
    node_alloc_of_ne _ (ne_nextId (h.inArena x hx))
  refine h.fold_congr leaf value (by simp) (fun x hx => ?_) fun x hx => ?_
  · rw [op, hsame x hx]; rfl
  · rw [inputs, hsame x hx]; rfl

theorem Ordered.columnCount_alloc (h : p.Ordered l) (n : Node) :
    ∀ x ∈ l, (p.alloc n).columnCount x = p.columnCount x :=
  h.fold_alloc 0 (fun _ => Layout.width) n

theorem Ordered.columnNames_alloc (h : p.Ordered l) (n : Node) :
    ∀ x ∈ l, (p.alloc n).columnNames x = p.columnNames x :=
  h.fold_alloc [] (fun _ => Layout.columnNames) n

/-- A plan with one more live node, whose handle nothing carried before. -/
structure Inserted (p r : Plan) (n : Node) (pre post : List NodeId) : Prop where
  order_before : p.order = pre ++ post
  order_eq : r.order = pre ++ p.nextId :: post
  size_eq : r.arena.size = p.arena.size + 1
  node_eq : ∀ x ∈ p.order, r.node x = p.node x
  node_new : r.node p.nextId = n

theorem Ordered.inserted (h : p.Ordered p.order) (n : Node) {pre post : List NodeId}
    (horder : p.order = pre ++ post) :
    p.Inserted { p.alloc n with order := pre ++ p.nextId :: post } n pre post where
  order_before := horder
  order_eq := rfl
  size_eq := size_alloc n
  node_eq x hx := node_alloc_of_ne _ (ne_nextId (h.inArena x hx))
  node_new := node_alloc_self n

theorem Ordered.inserted_after (h : p.Ordered p.order) {n : Node} {r : Plan}
    (hr : p.insertAfter id n = .ok r) : ∃ pre post, p.Inserted r n (pre ++ [id]) post := by
  obtain ⟨pre, post, horder, rfl⟩ := insertAfter_eq_ok hr
  rw [append_cons] at horder
  refine ⟨pre, post, ?_⟩
  rw [append_cons]
  exact h.inserted n horder

theorem Ordered.inserted_before (h : p.Ordered p.order) {n : Node} {r : Plan}
    (hr : p.insertBefore id n = .ok r) : ∃ pre post, p.Inserted r n pre (id :: post) := by
  obtain ⟨pre, post, horder, rfl⟩ := insertBefore_eq_ok hr
  exact ⟨pre, post, h.inserted n horder⟩

namespace Inserted

variable {r : Plan} {n : Node} {pre post : List NodeId} {x : NodeId}
  (f : p.Inserted r n pre post)
include f

theorem mem_order : x ∈ r.order ↔ x = p.nextId ∨ x ∈ p.order := by
  rw [f.order_eq, mem_middle_iff, f.order_before]

theorem op_eq (hx : x ∈ p.order) : r.op x = p.op x := op_congr (f.node_eq x hx)

theorem inputs_eq (hx : x ∈ p.order) : r.inputs x = p.inputs x := inputs_congr (f.node_eq x hx)

theorem op_new : r.op p.nextId = n.op := congrArg Node.op f.node_new

theorem inputs_new : r.inputs p.nextId = n.inputs := congrArg Node.inputs f.node_new

theorem columnCount_eq (h : p.Arranged p.order) :
    ∀ x ∈ p.order, r.columnCount x = p.columnCount x :=
  h.columnCount_congr (f.size_eq ▸ Nat.le_succ _)
    (fun _ hx => congrArg Operator.layout (f.op_eq hx)) fun _ hx => f.inputs_eq hx

theorem exposed_eq (hx : x ∈ p.order) : r.exposed x = p.exposed x := by
  rw [exposed, exposed, f.op_eq hx, f.inputs_eq hx]

/-- The new node may stand anywhere behind its inputs. -/
theorem arranged (h : p.Arranged p.order) (harity : n.op.arity.admits n.inputs.length = true)
    (hinputs : ∀ i ∈ n.inputs, i ∈ pre) : r.Arranged r.order := by
  rw [f.order_eq]
  refine ((f.order_before ▸ h).insert harity hinputs).congr
    (by rw [f.size_eq, size_alloc]) (fun x hx => ?_) fun x hx => ?_ <;>
    rcases mem_middle_iff.mp hx with rfl | hx
  · rw [f.op_new, Plan.op, node_alloc_self]
  · rw [f.op_eq (f.order_before ▸ hx), Plan.op, Plan.op,
      node_alloc_of_ne n (ne_nextId (h.inArena x (f.order_before ▸ hx)))]
  · rw [f.inputs_new, inputs, node_alloc_self]
  · rw [f.inputs_eq (f.order_before ▸ hx), inputs, inputs,
      node_alloc_of_ne n (ne_nextId (h.inArena x (f.order_before ▸ hx)))]

end Inserted

/-- A new node may stand anywhere behind its inputs, if it refers to columns in sight. -/
theorem WellFormed.insert (h : p.WellFormed) {r : Plan} {pre post : List NodeId} {n : Node}
    (f : p.Inserted r n pre post) (harity : n.op.arity.admits n.inputs.length = true)
    (hinputs : ∀ i ∈ n.inputs, i ∈ pre) (hfields : n.op.FieldsMatch)
    (hbound : ∀ e ∈ n.op.exprs, e.hasPositional = false)
    (hreads : ∀ c ∈ n.op.columns,
      c.source ∈ (if n.op.isJoin then n.inputs else n.inputs.flatMap p.exposed) ∧
        c.index < p.columnCount c.source) : r.WellFormed := by
  have hcount := f.columnCount_eq h.arranged
  have hlive : ∀ i ∈ n.inputs, i ∈ p.order := fun i hi => by
    rw [f.order_before]
    exact mem_append_left _ (hinputs i hi)
  have harranged := f.arranged h.arranged harity hinputs
  refine wellFormed_of_reads harranged ?_ ?_ ?_ <;> intro x hx <;>
    rcases f.mem_order.mp hx with rfl | hx
  · rwa [f.op_new]
  · rw [f.op_eq hx]
    exact h.fieldsMatch x hx
  · rwa [f.op_new]
  · rw [f.op_eq hx]
    exact h.bound x hx
  · intro c hc
    rw [f.op_new] at hc
    obtain ⟨hread, hlt⟩ := hreads c hc
    rw [reads, f.op_new, f.inputs_new, flatMap_congr fun i hi => f.exposed_eq (hlive i hi)]
    refine ⟨hread, ?_⟩
    have hsource : c.source ∈ p.order := by
      split at hread
      · exact hlive _ hread
      · obtain ⟨i, hi, hc⟩ := mem_flatMap.mp hread
        exact h.arranged.exposed_subset (hlive i hi) hc
    rwa [hcount _ hsource]
  · intro c hc
    rw [f.op_eq hx] at hc
    obtain ⟨hread, hlt⟩ := h.reads_of_mem hx hc
    rw [reads, f.op_eq hx, f.inputs_eq hx,
      flatMap_congr fun i hi => f.exposed_eq (h.arranged.mem_of_input hx hi)]
    exact ⟨hread, by rwa [hcount _ (h.arranged.reads_subset hx hread)]⟩

end Plan

end QueryPlan
