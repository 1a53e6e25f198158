import QueryPlan.Proofs.Scope.Repositioning
/-!
# QueryPlan.Proofs.Scope.PassThrough

**Taking out a filter or a sort, reference by reference.** A filter or a sort shows the columns of
its input, so it can be bypassed (`Plan.pass_through_exact`). How a reference to it is rewritten
depends on how its owner sees the node. An owner that reads the node and nothing else refers to the
entry of the input's output at the same position, which carries the handle of another node if the
input joins. A join over the node, and what sees the node through such a join, refers to the input
itself. Either way the reference stays at its position among the columns that the owner sees.
-/

namespace QueryPlan

open List

/-- Whether the operator passes the rows of its input on, with the columns they have. -/
def Operator.passesThrough : Operator → Bool
  | .filter _ | .sort _ => true
  | _ => false

namespace Operator

variable {op : Operator}

theorem layout_of_passesThrough (h : op.passesThrough = true) : op.layout = .first := by
  cases op <;> first | rfl | cases h

theorem arity_of_passesThrough (h : op.passesThrough = true) : op.arity = .exactly 1 := by
  cases op <;> first | rfl | cases h

theorem isJoin_of_passesThrough (h : op.passesThrough = true) : op.isJoin = false := by
  cases op <;> first | rfl | cases h

end Operator

namespace Plan

variable {p q r : Plan} {id input n x : NodeId} {c : ColumnRef} {changed : List NodeId}

/-! ### How a node sees another one -/

/-- A node that is no join reads another one, and nothing else. -/
def ReadsAlone (p : Plan) (n id : NodeId) : Prop := (p.op n).isJoin = false ∧ p.inputs n = [id]

/-- The references of a plan after a node was bypassed for its input: `φ n` tells what a reference
of the node `n` became. -/
structure PassedThrough (p q : Plan) (id input : NodeId) (φ : NodeId → ColumnRef → ColumnRef) :
    Prop where
  order_eq : q.order = p.order.filter fun n => n != id
  root_eq : q.root? = p.root?
  size_eq : q.arena.size = p.arena.size
  /-- Nothing that is live reads the node or refers to it. -/
  forgotten : ∀ n ∈ q.order, id ∉ q.inputs n ∧ ∀ c ∈ (q.op n).columns, c.source ≠ id
  /-- Besides inputs and references, nothing changes. -/
  node_eq : ∀ n ∈ q.order, q.node n = (p.node n).reread (id.replaced input) (φ n)
  /-- An entry of the output of the node becomes that entry of the output of its input. -/
  direct : ∀ n ∈ q.order, p.ReadsAlone n id → ∀ c ∈ (p.op n).columns, c.source = id ∧
    ∃ columns : List ColumnRef, p.output input = .ok columns ∧ q.output input = .ok columns ∧
      columns[c.index]? = some (φ n c)
  /-- Whatever else refers to the node sees it through a join, and comes to refer to the input. Other
  references stay. -/
  throughJoin : ∀ n ∈ q.order, ¬ p.ReadsAlone n id → ∀ c ∈ (p.op n).columns,
    φ n c = ⟨id.replaced input c.source, c.index⟩
  /-- References stay at their positions in what their owner sees. -/
  place_kept : ∀ n ∈ q.order, ∀ c ∈ (p.op n).columns, ∃ before after : List ColumnRef,
    p.scope n = .ok before ∧ q.scope n = .ok after ∧ c ∈ before ∧
      ∀ place : Nat, before[place]? = some c → after[place]? = some (φ n c)
  /-- What is not live, and what neither reads the node nor sees it, stays as it is. -/
  unchanged : ∀ n, n ∉ p.order ∨ id ∉ p.inputs n ∧ id ∉ p.reads n → q.node n = p.node n

namespace Lowered

variable (f : Lowered p r id input changed)
include f

/-- What reads the node alone sees the columns of its input at their positions. -/
theorem getElem?_repositioned (hx : x ∈ p.order) (halone : p.ReadsAlone x id)
    (hc : c ∈ (p.op x).columns) : c.source = id ∧
      (p.columnsOf (p.exposed input))[c.index]? = some (p.repositioned r x x c) := by
  obtain ⟨hold, hnew⟩ := f.columnsOf_direct hx halone.1 halone.2
  have hmem := f.inSight.mem_columnsOf hx hc
  rw [hold] at hmem
  obtain ⟨source, index⟩ := c
  obtain ⟨rfl, hlt⟩ := ColumnRef.mem_range.mp hmem
  have hget : index < (p.columnsOf (p.exposed input)).length := by
    rwa [length_columnsOf, ← f.inSight.arranged.columnCount_eq_sum_exposed f.input_live]
  refine ⟨rfl, ?_⟩
  rw [repositioned, hold, hnew, ColumnRef.idxOf_range hlt, getElem?_eq_getElem hget]
  rfl

/-- What does not read the node alone sees the input in its place. -/
theorem columnsOf_not_alone (hx : x ∈ p.order) (halone : ¬ p.ReadsAlone x id)
    (hc : c ∈ (p.op x).columns) :
    r.columnsOf (r.reads x) = (p.columnsOf (p.reads x)).map (ColumnRef.replaced id input) :=
  f.columnsOf_indirect hx ((direct_or_indirect f.inSight hx hc id).resolve_left halone)

/-- Wherever a node sees a column, it sees the repositioned one afterwards. -/
theorem getElem?_columnsOf (hx : x ∈ p.order) (hc : c ∈ (p.op x).columns) {place : Nat}
    (hplace : (p.columnsOf (p.reads x))[place]? = some c) :
    (r.columnsOf (r.reads x))[place]? = some (p.repositioned r x x c) := by
  by_cases halone : p.ReadsAlone x id
  · obtain ⟨hold, hnew⟩ := f.columnsOf_direct hx halone.1 halone.2
    rw [hold, ColumnRef.getElem?_range] at hplace
    rw [hnew, ← (f.getElem?_repositioned hx halone hc).2, hplace.2]
  · have hscope := f.columnsOf_not_alone hx halone hc
    rw [repositioned_of_map hscope (f.inSight.mem_columnsOf hx hc), hscope, getElem?_map, hplace]
    rfl

/-- Nothing refers to the node. -/
theorem source_ne (hx : x ∈ p.order) (hc : c ∈ (r.op x).columns) : c.source ≠ id := by
  have hlowered := f.scoped_lowered
  have hx' : x ∈ r.order := f.order_eq ▸ hx
  rintro hsource
  have hsee : id ∈ r.reads x := hsource ▸ (Plan.mem_columnsOf.mp (hlowered.mem_columnsOf hx' hc)).1
  rcases mem_inputs_of_reads hsee with hread | ⟨i, hi, -, hread⟩
  · exact f.not_mem_inputs hx hread
  · have hlive : i ∈ p.order := f.order_eq ▸ hlowered.arranged.mem_of_input hx' hi
    exact f.not_mem_inputs hlive hread

/-- What is not live stays as it is. -/
theorem node_not_live (hx : x ∉ p.order) : r.node x = p.node x :=
  f.node_other x fun hchanged => hx (f.changed_live hchanged)

/-- The node leaves, and references are rewritten as their owners see it. -/
theorem passedThrough (hroot : p.root? ≠ some id) :
    PassedThrough p (r.remove id) id input fun n => p.repositioned r n n := by
  have hshape : SameShape r (r.remove id) := .of_arena_eq rfl
  have horder : (r.remove id).order = p.order.filter fun n => n != id := by
    rw [order_remove, f.order_eq]
  have hlive : ∀ n ∈ (r.remove id).order, n ∈ p.order := fun n hn =>
    (mem_filter.mp (horder ▸ hn)).1
  have hinput : input ∈ (r.remove id).order :=
    mem_order_remove.mpr ⟨f.order_eq ▸ f.input_live, f.input_ne⟩
  have hrootEq : r.root? = p.root? := by rw [root?, f.order_eq, root?]
  have harranged := f.scoped_remove.arranged
  refine ⟨horder, ?_, f.size_eq, fun n hn => ?_, fun n hn => ?_, fun n hn halone c hc => ?_,
    fun n hn halone c hc => ?_, fun n hn c hc => ?_, fun n hn => ?_⟩
  · rw [root?_remove (hrootEq ▸ hroot), hrootEq]
  · exact ⟨f.not_mem_inputs (hlive n hn), fun c hc => f.source_ne (hlive n hn) hc⟩
  · exact f.node_eq_reread (hlive n hn)
  · obtain ⟨hsource, hget⟩ := f.getElem?_repositioned (hlive n hn) halone hc
    refine ⟨hsource, _, f.inSight.arranged.output_eq f.input_live, ?_, hget⟩
    rw [harranged.output_eq hinput, hshape.columnsOf_eq, hshape.exposed_eq,
      f.columnsOf_exposed_input]
  · exact repositioned_of_map (f.columnsOf_not_alone (hlive n hn) halone hc)
      (f.inSight.mem_columnsOf (hlive n hn) hc)
  · have hmoved : p.repositioned r n n c ∈ ((r.remove id).op n).columns := by
      change _ ∈ (r.op n).columns
      rw [f.op_lowered (hlive n hn), Operator.columns_mapExprs]
      exact mem_map_of_mem hc
    refine ⟨_, _, f.inSight.arranged.scope_eq (hlive n hn) hc, harranged.scope_eq hn hmoved,
      f.inSight.mem_columnsOf (hlive n hn) hc, fun place hplace => ?_⟩
    rw [hshape.columnsOf_reads_eq]
    exact f.getElem?_columnsOf (hlive n hn) hc hplace
  · by_cases hn' : n ∈ p.order
    · obtain ⟨hread, hsee⟩ := hn.resolve_left (not_not_intro hn')
      exact f.node_unseen hn' hread hsee
    · exact f.node_not_live hn'

end Lowered

/-- **Bypassing a filter or a sort is exact.** In a well-formed plan it succeeds for every live
filter or sort but the root, and the result is well-formed. References to the node become references
to the columns of its input at the same positions, each as its owner sees them, and nothing else
changes. -/
theorem pass_through_exact (h : p.WellFormed) (hid : id ∈ p.order)
    (hop : (p.op id).passesThrough = true) (hroot : p.root? ≠ some id) :
    ∃ input q φ, p.inputs id = [input] ∧ p.bypass id none = .ok q ∧ q.WellFormed ∧
      PassedThrough p q id input φ := by
  have hlayout := Operator.layout_of_passesThrough hop
  have harity := h.arranged.arity id hid
  rw [Operator.arity_of_passesThrough hop] at harity
  obtain ⟨input, hinputs⟩ := Arity.exactly_one_admits harity
  obtain ⟨r, hr, f⟩ := h.toScoped.bypass_ok hid hlayout hinputs
  have hcount : ∀ i, p.inputs id = [i] → p.columnCount id = p.columnCount i := fun i hi =>
    h.arranged.columnCount_of_first hid hlayout hi
  have hwf := (h.bypass hid (Operator.isJoin_of_passesThrough hop) hcount hr).1
  exact ⟨input, _, _, hinputs, hr, hwf, f.passedThrough hroot⟩

/-- A filter of joined rows that a projection reads, and a join besides. -/
def sharedSelection : Plan :=
  let rows (names : List String) : Operator := .values ⟨names.map fun n => ⟨n, .condition⟩, []⟩
  let project (columns : List ColumnRef) (names : List String) : Operator :=
    .project (.plain (columns.map Expr.column) names)
  { arena := #[.make 0 [] (rows ["a", "b"]), .make 1 [] (rows ["c"]),
      .make 2 [⟨0⟩, ⟨1⟩] (.join ⟨.bool true, .inner⟩),
      .make 3 [⟨2⟩] (.filter ⟨.column ⟨⟨0⟩, 0⟩⟩),
      .make 4 [⟨3⟩] (project [⟨⟨3⟩, 2⟩, ⟨⟨3⟩, 0⟩] ["c", "a"]),
      .make 5 [⟨3⟩, ⟨4⟩] (.join ⟨.column ⟨⟨3⟩, 1⟩, .inner⟩),
      .make 6 [⟨5⟩] (project [⟨⟨3⟩, 2⟩, ⟨⟨4⟩, 1⟩] ["c", "a"])]
    order := (range 7).map NodeId.mk }

/-- The projection comes to refer to the sides of the join below, and the join above, like what it
feeds, to the join below itself. -/
theorem pass_through_exact_sharedSelection : sharedSelection.WellFormed ∧
    sharedSelection.root? ≠ some ⟨3⟩ ∧ ∃ q φ, sharedSelection.bypass ⟨3⟩ none = .ok q ∧
      PassedThrough sharedSelection q ⟨3⟩ ⟨2⟩ φ ∧
      (q.op ⟨4⟩).columns = [⟨⟨1⟩, 0⟩, ⟨⟨0⟩, 0⟩] ∧ (q.op ⟨5⟩).columns = [⟨⟨2⟩, 1⟩] ∧
        (q.op ⟨6⟩).columns = [⟨⟨2⟩, 2⟩, ⟨⟨4⟩, 1⟩] := by
  have h : sharedSelection.WellFormed :=
    wellFormed_of_reads ⟨⟨by decide, by decide, by decide⟩, by decide⟩ (by decide) (by decide)
      (by decide +kernel)
  have hroot : sharedSelection.root? ≠ some ⟨3⟩ := by decide
  have hop : (sharedSelection.op ⟨3⟩).passesThrough = true := rfl
  obtain ⟨input, q, φ, hinput, hq, -, hpassed⟩ := pass_through_exact h (by decide) hop hroot
  obtain rfl : input = ⟨2⟩ := (singleton_inj.mp hinput).symm
  have hrun : (sharedSelection.bypass ⟨3⟩ none).holds (fun q =>
      (q.op ⟨4⟩).columns == [⟨⟨1⟩, 0⟩, ⟨⟨0⟩, 0⟩] && (q.op ⟨5⟩).columns == [⟨⟨2⟩, 1⟩] &&
        (q.op ⟨6⟩).columns == [⟨⟨2⟩, 2⟩, ⟨⟨4⟩, 1⟩]) = true := by decide +kernel
  obtain ⟨q', hq', hcolumns⟩ := Result.holds_eq_true.mp hrun
  obtain rfl : q = q' := Except.ok.inj (hq.symm.trans hq')
  simp only [Bool.and_eq_true, beq_iff_eq] at hcolumns
  exact ⟨h, hroot, q, φ, hq, hpassed, hcolumns.1.1, hcolumns.1.2, hcolumns.2⟩

end Plan

end QueryPlan
