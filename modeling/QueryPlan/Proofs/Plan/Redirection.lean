import QueryPlan.Plan.Redirect
import QueryPlan.Proofs.Plan.WellFormed
/-!
# QueryPlan.Proofs.Plan.Redirection

**Reading another node.** `Plan.replaceInput` is a plain change of one node (`Node.moved`), given
the columns that stand in for those of the old node, and `Plan.replaceInputEverywhere` makes this
change to every live node but the new one. While the loop runs, the columns that stand in do not
change, because the new node does not depend on the nodes that are changed.

`Plan.Rewired` is what both have in common: some nodes read the new node in place of the old one.
That is enough for what comes from layouts and inputs alone. `Plan.Redirection` also says what
became of the references. The main statement, `Redirection.wellFormed`, is that references stay in sight: a node that
read the old node directly reads what the new one exposes, and a node that sees the old one
through a join sees the new one there.
-/

namespace QueryPlan

open List Plan

/-- The handle that takes the place of another one. -/
def NodeId.replaced (old new i : NodeId) : NodeId := if i = old then new else i

theorem NodeId.replaced_self (old new : NodeId) : old.replaced new old = new := if_pos rfl

theorem NodeId.replaced_of_ne {old i : NodeId} (new : NodeId) (hi : i ≠ old) :
    old.replaced new i = i := if_neg hi

/-- Nothing is replaced in a list without the old handle. -/
theorem NodeId.map_replaced_of_not_mem {old : NodeId} (new : NodeId) {ids : List NodeId}
    (h : old ∉ ids) : ids.map (old.replaced new) = ids := by
  refine (map_congr_left fun i hi => ?_).trans (map_id _)
  exact replaced_of_ne new fun heq => h (heq ▸ hi)

/-- The same column, of the node that takes the place of another one. -/
def ColumnRef.replaced (old new : NodeId) (c : ColumnRef) : ColumnRef :=
  ⟨old.replaced new c.source, c.index⟩

/-- A column is at the same place among the columns of other nodes, if the new node is not among
the nodes together with the old one. -/
theorem Plan.idxOf_replaced {p : Plan} {old new : NodeId} {ids : List NodeId} {c : ColumnRef}
    (hc : c.source ∈ ids) (hapart : old ∈ ids → new ∉ ids) :
    ((p.columnsOf ids).map (ColumnRef.replaced old new)).idxOf (c.replaced old new) =
      (p.columnsOf ids).idxOf c := by
  refine idxOf_map_of_inj fun d hd heq => ?_
  obtain ⟨hsource, hindex⟩ := ColumnRef.mk.inj heq
  have hdsource := (mem_columnsOf.mp hd).1
  have hsame : d.source = c.source := by
    unfold NodeId.replaced at hsource
    grind
  cases d
  cases c
  simp_all

namespace ColumnMap

/-- A mapping says where the positions of a list stand in it. -/
def Follows (m : ColumnMap) (places : List Nat) : Prop :=
  ∀ move, move ∈ m ↔ places[move.2]? = some move.1

theorem follows_ofKept (kept : List Nat) : (ofKept kept).Follows kept :=
  fun _ => mem_zipIdx_iff_getElem?

namespace Follows

variable {m : ColumnMap} {places : List Nat} (h : m.Follows places) {i k : Nat}
include h

theorem mappedPosition {old : NodeId} (hk : mappedPosition old (some m) i = .ok k) :
    places[k]? = some i := by
  obtain ⟨before, after, hmap, -⟩ := lookup_eq_some_iff.mp (Result.ofOption_eq_ok.mp hk)
  exact (h (i, k)).mp (hmap ▸ mem_append_right _ mem_cons_self)

/-- A position of the list has a place in it. -/
theorem mappedPosition_ok (old : NodeId) (hi : i ∈ places) :
    ∃ k, Plan.mappedPosition old (some m) i = .ok k ∧ k < places.length := by
  obtain ⟨place, hplace⟩ := mem_iff_getElem?.mp hi
  obtain ⟨k, hk⟩ : ∃ k, m.lookup i = some k := by
    refine Option.ne_none_iff_exists'.mp fun hnone => ?_
    simpa using lookup_eq_none_iff.mp hnone _ ((h (i, place)).mpr hplace)
  have hmapped : Plan.mappedPosition old (some m) i = .ok k := Result.ofOption_eq_ok.mpr hk
  exact ⟨k, hmapped, (List.getElem?_eq_some_iff.mp (h.mappedPosition hmapped)).1⟩

end Follows

end ColumnMap

namespace Node

/-- The operator of a node, with references to `old` resolved against columns of another
node. -/
def movedOp (n : Node) (old new : NodeId) (mapping : Option ColumnMap)
    (columns : List ColumnRef) : Operator :=
  let op := n.op.mapExprs (Expr.mapColumns fun c =>
    Result.valueOr c (redirectColumn old new mapping columns c))
  if n.inputs.contains old && mapping.isSome then
    op.mapPositions fun i => Result.valueOr i (mappedPosition old mapping i)
  else op

/-- The node with `new` as input in place of `old`. -/
def moved (n : Node) (old new : NodeId) (mapping : Option ColumnMap)
    (columns : List ColumnRef) : Node :=
  { n with
    inputs := n.inputs.map (old.replaced new)
    op := n.movedOp old new mapping columns }

section

variable (n : Node) (old new : NodeId) (mapping : Option ColumnMap) (columns : List ColumnRef)

@[simp] theorem inputs_moved :
    (n.moved old new mapping columns).inputs = n.inputs.map (old.replaced new) := rfl

@[simp] theorem layout_moved : (n.moved old new mapping columns).op.layout = n.op.layout := by
  unfold moved movedOp
  dsimp only
  split <;> simp

@[simp] theorem arity_moved : (n.moved old new mapping columns).op.arity = n.op.arity := by
  unfold moved movedOp
  dsimp only
  split <;> simp

theorem fieldsMatch_moved (h : n.op.FieldsMatch) :
    (n.moved old new mapping columns).op.FieldsMatch := by
  unfold moved movedOp
  dsimp only
  split
  · exact Operator.fieldsMatch_mapPositions _ _ (Operator.fieldsMatch_mapExprs _ _ h)
  · exact Operator.fieldsMatch_mapExprs _ _ h

theorem exprs_moved : (n.moved old new mapping columns).op.exprs =
    n.op.exprs.map (Expr.mapColumns fun c =>
      Result.valueOr c (redirectColumn old new mapping columns c)) := by
  unfold moved movedOp
  dsimp only
  split <;> simp [Operator.exprs_mapExprs]

theorem columns_moved : (n.moved old new mapping columns).op.columns =
    n.op.columns.map fun c => Result.valueOr c (redirectColumn old new mapping columns c) := by
  rw [Operator.columns, Operator.columns, exprs_moved, flatMap_map, map_flatMap]
  exact flatMap_congr fun e _ => Expr.columns_mapColumns _ e

end

end Node

namespace Plan

variable {p q : Plan} {old new : NodeId} {mapping : Option ColumnMap}

/-- A reference to another node stays. -/
theorem redirectColumn_of_ne {columns : List ColumnRef} {c : ColumnRef} (hc : c.source ≠ old) :
    redirectColumn old new mapping columns c = .ok c := if_neg hc

/-- A node that neither reads the old one nor refers to it stays as it is. -/
theorem moved_eq_self {n : Node} {columns : List ColumnRef} (hinputs : old ∉ n.inputs)
    (hcolumns : ∀ c ∈ n.op.columns, c.source ≠ old) :
    n.moved old new mapping columns = n := by
  have hop : n.movedOp old new mapping columns = n.op := by
    unfold Node.movedOp
    dsimp only
    rw [if_neg (by simp [hinputs])]
    refine (Operator.mapExprs_congr fun e he => ?_).trans (Operator.mapExprs_id _)
    refine (Expr.mapColumns_congr fun c hc => ?_).trans (Expr.mapColumns_id e)
    rw [redirectColumn_of_ne (hcolumns c (Operator.mem_columns.mpr ⟨e, he, hc⟩))]
    rfl
  rw [Node.moved, hop, NodeId.map_replaced_of_not_mem new hinputs]

/-- A reference to the old node becomes one of the columns that stand in for its columns. -/
theorem mem_of_redirectColumn {columns : List ColumnRef} {c d : ColumnRef}
    (hc : c.source = old) (h : redirectColumn old new mapping columns c = .ok d) :
    d ∈ columns := by
  rw [redirectColumn, if_pos hc, Result.bind_eq_ok] at h
  obtain ⟨i, -, h⟩ := h
  exact mem_of_getElem? (Result.ofOption_eq_ok.mp h)

/-! ### One node -/

theorem modify_congr {id : NodeId} {f g : Node → Node} (h : f (p.node id) = g (p.node id)) :
    p.modify id f = p.modify id g := by
  unfold modify
  congr 1
  apply Array.ext_getElem?
  intro i
  rw [Array.getElem?_modify, Array.getElem?_modify]
  split
  · next hi =>
    subst hi
    cases hn : p.arena[id.index]? with
    | none => rfl
    | some n =>
        rw [node, hn] at h
        exact congrArg some h
  · rfl

/-- The change of an operator succeeds if it refuses none of its references and positions. -/
theorem movedOp_eq_ok {n : Node} {columns : List ColumnRef} {op : Operator} :
    ((n.op.mapExprsM (Expr.mapColumnsM (redirectColumn old new mapping columns))) >>= fun op =>
      if n.inputs.contains old && mapping.isSome then
        op.mapPositionsM (mappedPosition old mapping)
      else .ok op) = .ok op ↔
    (∀ c ∈ n.op.columns, ∃ d, redirectColumn old new mapping columns c = .ok d) ∧
      (old ∈ n.inputs → mapping.isSome → ∀ i ∈ n.op.positions,
        ∃ k, mappedPosition old mapping i = .ok k) ∧
      op = n.movedOp old new mapping columns := by
  rw [Result.bind_eq_ok, Node.movedOp]
  split
  · next hcond =>
    simp only [Bool.and_eq_true, contains_iff_mem] at hcond
    simp only [hcond, Operator.mapColumnsM_eq_ok, Operator.mapPositionsM_eq_ok, forall_const]
    constructor
    · rintro ⟨_, ⟨hcolumns, rfl⟩, hpositions⟩
      rw [Operator.positions_mapExprs] at hpositions
      exact ⟨hcolumns, hpositions⟩
    · rintro ⟨hcolumns, hpositions⟩
      refine ⟨_, ⟨hcolumns, rfl⟩, ?_⟩
      rw [Operator.positions_mapExprs]
      exact hpositions
  · next hcond =>
    simp only [Bool.and_eq_true, contains_iff_mem, not_and] at hcond
    simp only [Operator.mapColumnsM_eq_ok, Except.ok.injEq]
    constructor
    · rintro ⟨_, ⟨hcolumns, rfl⟩, rfl⟩
      exact ⟨hcolumns, fun hold hsome => absurd hsome (hcond hold), rfl⟩
    · rintro ⟨hcolumns, -, rfl⟩
      exact ⟨_, ⟨hcolumns, rfl⟩, rfl⟩

theorem replaceInput_eq (node : NodeId) :
    p.replaceInput node old new mapping =
      p.replacementColumns node old new >>= fun columns =>
        (((p.op node).mapExprsM (Expr.mapColumnsM (redirectColumn old new mapping columns))) >>=
          fun op =>
            if (p.inputs node).contains old && mapping.isSome then
              op.mapPositionsM (mappedPosition old mapping)
            else .ok op) >>= fun op =>
              .ok (p.modify node fun n =>
                { n with inputs := (p.inputs node).map (old.replaced new), op := op }) := by
  unfold replaceInput
  congr 1
  funext columns
  rw [bind_assoc]
  congr 1
  funext op
  split <;> rfl

/-- A node that reads another one in place of an old one is the moved node, and none of its
references and positions was refused. -/
theorem replaceInput_eq_ok {node : NodeId} :
    p.replaceInput node old new mapping = .ok q ↔
      ∃ columns, p.replacementColumns node old new = .ok columns ∧
        (∀ c ∈ (p.op node).columns, ∃ d, redirectColumn old new mapping columns c = .ok d) ∧
        (old ∈ p.inputs node → mapping.isSome → ∀ i ∈ (p.op node).positions,
          ∃ k, mappedPosition old mapping i = .ok k) ∧
        q = p.modify node fun n => n.moved old new mapping columns := by
  rw [replaceInput_eq, Result.bind_eq_ok]
  refine exists_congr fun columns => and_congr_right fun _ => ?_
  rw [Result.bind_eq_ok]
  constructor
  · rintro ⟨op, hop, h⟩
    obtain ⟨hcolumns, hpositions, rfl⟩ := movedOp_eq_ok.mp hop
    exact ⟨hcolumns, hpositions, (Except.ok.inj h).symm.trans (modify_congr rfl)⟩
  · rintro ⟨hcolumns, hpositions, rfl⟩
    exact ⟨_, movedOp_eq_ok.mpr ⟨hcolumns, hpositions, rfl⟩,
      congrArg Except.ok (modify_congr rfl)⟩

/-! ### Every node -/

/-- The columns of `new` that stand in for those of `old` in a node. -/
def standIns (p : Plan) (node old new : NodeId) : List ColumnRef :=
  p.columnsOf (if (p.inputs node).contains old && !(p.op node).isJoin then p.exposed new else [new])

variable {l : List NodeId}

theorem replacementColumns_eq (h : p.Arranged l) (hnew : new ∈ l) (node : NodeId) :
    p.replacementColumns node old new = .ok (p.standIns node old new) := by
  unfold replacementColumns standIns
  split
  · exact h.output_eq hnew
  · rw [Result.bind_ok (h.width_eq hnew), columnsOf, flatMap_singleton]
    rfl

/-- Some nodes of a plan read the new node in place of the old one, and what they refer to is
resolved against some columns. -/
structure Rewired (p q : Plan) (old new : NodeId) (mapping : Option ColumnMap)
    (changed : List NodeId) : Prop where
  order_eq : q.order = p.order
  size_eq : q.arena.size = p.arena.size
  node_moved : ∀ n ∈ changed, ∃ columns, q.node n = (p.node n).moved old new mapping columns
  node_other : ∀ n, n ∉ changed → q.node n = p.node n

namespace Rewired

variable {r : Plan} {changed : List NodeId} {n x a : NodeId}

theorem refl (p : Plan) (old new : NodeId) (mapping : Option ColumnMap) :
    Rewired p p old new mapping [] :=
  ⟨rfl, rfl, nofun, fun _ _ => rfl⟩

/-- One more node reads the new one. -/
theorem concat (hr : Rewired p r old new mapping changed) (ha : a ∉ changed)
    (hstep : Rewired r q old new mapping [a]) :
    Rewired p q old new mapping (changed ++ [a]) where
  order_eq := hstep.order_eq.trans hr.order_eq
  size_eq := hstep.size_eq.trans hr.size_eq
  node_moved n hn := by
    by_cases hna : n = a
    · rw [hna, ← hr.node_other a ha]
      exact hstep.node_moved a (mem_singleton_self a)
    · rw [hstep.node_other n (by simpa using hna)]
      exact hr.node_moved n ((mem_append.mp hn).resolve_right (by simpa using hna))
  node_other n hn := by
    rw [mem_append, mem_singleton, not_or] at hn
    rw [hstep.node_other n (by simpa using hn.2), hr.node_other n hn.1]

variable (hr : Rewired p q old new mapping changed)
include hr

theorem op_layout (x : NodeId) : (q.op x).layout = (p.op x).layout := by
  unfold Plan.op
  by_cases hx : x ∈ changed
  · obtain ⟨columns, hcolumns⟩ := hr.node_moved x hx
    rw [hcolumns, Node.layout_moved]
  · rw [hr.node_other x hx]

theorem op_arity (x : NodeId) : (q.op x).arity = (p.op x).arity := by
  unfold Plan.op
  by_cases hx : x ∈ changed
  · obtain ⟨columns, hcolumns⟩ := hr.node_moved x hx
    rw [hcolumns, Node.arity_moved]
  · rw [hr.node_other x hx]

theorem op_isJoin (x : NodeId) : (q.op x).isJoin = (p.op x).isJoin := by
  rw [Bool.eq_iff_iff, ← Operator.layout_eq_all_iff, ← Operator.layout_eq_all_iff, hr.op_layout]

theorem op_other (hn : n ∉ changed) : q.op n = p.op n := by
  rw [Plan.op, hr.node_other n hn]
  rfl

theorem inputs_eq (hn : n ∈ changed) : q.inputs n = (p.inputs n).map (old.replaced new) := by
  obtain ⟨columns, hcolumns⟩ := hr.node_moved n hn
  rw [inputs, hcolumns, Node.inputs_moved]
  rfl

theorem inputs_other (hn : n ∉ changed) : q.inputs n = p.inputs n := by
  rw [inputs, hr.node_other n hn]
  rfl

/-- A node keeps its inputs besides the old one. -/
theorem mem_inputs_of_ne (hx : x ∈ p.inputs n) (hxold : x ≠ old) : x ∈ q.inputs n := by
  by_cases hn : n ∈ changed
  · rw [hr.inputs_eq hn]
    exact mem_map.mpr ⟨x, hx, NodeId.replaced_of_ne new hxold⟩
  · rwa [hr.inputs_other hn]

theorem mem_inputs_new (hn : n ∈ changed) (hx : old ∈ p.inputs n) : new ∈ q.inputs n := by
  rw [hr.inputs_eq hn]
  exact mem_map.mpr ⟨old, hx, NodeId.replaced_self old new⟩

/-- A changed node does not read the old one, unless it is the new one. -/
theorem not_mem_inputs_old (hn : n ∈ changed) (hne : new ≠ old) : old ∉ q.inputs n := by
  rw [hr.inputs_eq hn]
  intro hold
  obtain ⟨i, -, hi⟩ := mem_map.mp hold
  unfold NodeId.replaced at hi
  split at hi
  · exact hne hi
  · next hiold => exact hiold hi

theorem fieldsMatch (h : (p.op x).FieldsMatch) : (q.op x).FieldsMatch := by
  by_cases hx : x ∈ changed
  · obtain ⟨columns, hcolumns⟩ := hr.node_moved x hx
    rw [Plan.op, hcolumns]
    exact Node.fieldsMatch_moved _ _ _ _ _ h
  · rwa [hr.op_other hx]

theorem bound (h : ∀ e ∈ (p.op x).exprs, e.hasPositional = false) :
    ∀ e ∈ (q.op x).exprs, e.hasPositional = false := by
  by_cases hx : x ∈ changed
  · obtain ⟨columns, hcolumns⟩ := hr.node_moved x hx
    rw [Plan.op, hcolumns, Node.exprs_moved]
    intro e he
    obtain ⟨d, hd, rfl⟩ := mem_map.mp he
    rw [Expr.hasPositional_mapColumns]
    exact h d hd
  · rwa [hr.op_other hx]

/-- What is ordered stays so, if the new node stands before the readers of the old one. -/
theorem ordered (h : p.Ordered l) (hbefore : ∀ n ∈ changed, n ∈ l → old ∈ p.inputs n →
    [new, n] <+ l) : q.Ordered l where
  nodup := h.nodup
  inArena id hid := hr.size_eq ▸ h.inArena id hid
  before id hid i hi := by
    by_cases hchanged : id ∈ changed
    · rw [hr.inputs_eq hchanged] at hi
      obtain ⟨j, hj, rfl⟩ := mem_map.mp hi
      by_cases hjold : j = old
      · subst hjold
        rw [NodeId.replaced_self]
        exact hbefore id hchanged hid hj
      · rw [NodeId.replaced_of_ne new hjold]
        exact h.before id hid j hj
    · rw [hr.inputs_other hchanged] at hi
      exact h.before id hid i hi

end Rewired

/-- Lets one node read the new one. -/
theorem replaceInput_rewired {node : NodeId} (hnode : node.index < p.arena.size)
    (hq : p.replaceInput node old new mapping = .ok q) : Rewired p q old new mapping [node] := by
  obtain ⟨columns, -, -, -, rfl⟩ := replaceInput_eq_ok.mp hq
  refine ⟨rfl, by simp, fun n hn => ⟨columns, ?_⟩, fun n hn => ?_⟩
  · rw [mem_singleton.mp hn, node_modify_self _ hnode]
  · exact node_modify_of_ne _ (by simpa using hn)

/-- A loop over nodes lets each of them read the new one. -/
theorem foldlM_replaceInput_rewired {nodes : List NodeId}
    (hq : nodes.foldlM (fun p n => p.replaceInput n old new mapping) p = .ok q)
    (hnodup : nodes.Nodup) (hin : ∀ n ∈ nodes, n.index < p.arena.size) :
    Rewired p q old new mapping nodes := by
  refine Result.foldlM_induct (motive := fun done r => Rewired p r old new mapping done)
    hq (.refl p old new mapping) ?_
  rintro done a rest r r' rfl hr hstep
  have ha : a.index < r.arena.size := by
    rw [hr.size_eq]
    exact hin a (by simp)
  refine hr.concat (fun hmem => ?_) (replaceInput_rewired ha hstep)
  exact (nodup_append.mp hnodup).2.2 a hmem a mem_cons_self rfl

theorem replaceInputEverywhere_rewired (hq : p.replaceInputEverywhere old new mapping = .ok q)
    (hnodup : p.order.Nodup) (hin : ∀ n ∈ p.order, n.index < p.arena.size) :
    Rewired p q old new mapping (p.order.filter fun n => n != new) :=
  foldlM_replaceInput_rewired hq (hnodup.filter _) fun n hn => hin n (mem_filter.mp hn).1

/-- A loop over nodes that succeeds refuses no position at which one of them reads the old node. -/
theorem foldlM_replaceInput_placed {nodes : List NodeId}
    (hq : nodes.foldlM (fun p n => p.replaceInput n old new mapping) p = .ok q)
    (hnodup : nodes.Nodup) (hin : ∀ n ∈ nodes, n.index < p.arena.size) :
    ∀ n ∈ nodes, old ∈ p.inputs n → mapping.isSome → ∀ i ∈ (p.op n).positions,
      ∃ k, mappedPosition old mapping i = .ok k := by
  refine (Result.foldlM_induct (motive := fun done r => Rewired p r old new mapping done ∧
    ∀ n ∈ done, old ∈ p.inputs n → mapping.isSome → ∀ i ∈ (p.op n).positions,
      ∃ k, mappedPosition old mapping i = .ok k) hq
    ⟨.refl p old new mapping, fun _ hn => absurd hn not_mem_nil⟩ ?_).2
  rintro done a rest r r' rfl ⟨hr, hdone⟩ hstep
  have hne : a ∉ done := fun hmem => (nodup_append.mp hnodup).2.2 a hmem a mem_cons_self rfl
  have ha : a.index < r.arena.size := hr.size_eq ▸ hin a (by simp)
  refine ⟨hr.concat hne (replaceInput_rewired ha hstep), fun n hn => ?_⟩
  rcases mem_append.mp hn with hn | hn
  · exact hdone n hn
  · obtain ⟨_, -, -, hplaced, -⟩ := replaceInput_eq_ok.mp hstep
    rw [hr.inputs_other hne, hr.op_other hne] at hplaced
    rwa [mem_singleton.mp hn]

/-- Some nodes of a plan read the new node in place of the old one. -/
structure Redirection (p q : Plan) (old new : NodeId) (mapping : Option ColumnMap)
    (changed : List NodeId) : Prop extends Rewired p q old new mapping changed where
  node_eq : ∀ n ∈ changed, q.node n = (p.node n).moved old new mapping (p.standIns n old new)
  /-- No reference is refused. -/
  found : ∀ n ∈ changed, ∀ c ∈ (p.op n).columns,
    ∃ d, redirectColumn old new mapping (p.standIns n old new) c = .ok d
  node_moved := fun n hn => ⟨_, node_eq n hn⟩

theorem replaceInput_redirection {node : NodeId} (h : p.Arranged l) (hnew : new ∈ l)
    (hnode : node.index < p.arena.size) (hq : p.replaceInput node old new mapping = .ok q) :
    Redirection p q old new mapping [node] := by
  obtain ⟨columns, hcolumns, hfound, -, hmodify⟩ := replaceInput_eq_ok.mp hq
  rw [replacementColumns_eq h hnew] at hcolumns
  cases hcolumns
  refine { replaceInput_rewired hnode hq with node_eq := fun n hn => ?_, found := fun n hn => ?_ }
  · rw [mem_singleton.mp hn, hmodify, node_modify_self _ hnode]
  · rw [mem_singleton.mp hn]
    exact hfound

/-- Two plans that differ in the references and the positions of nodes, and in the inputs of nodes
that are not arranged, stand in alike. -/
theorem standIns_congr {node : NodeId} (h : p.Arranged l) (hnew : new ∈ l)
    (hsize : q.arena.size = p.arena.size)
    (hlayout : ∀ x ∈ l, (q.op x).layout = (p.op x).layout)
    (hinputs : ∀ x ∈ l, q.inputs x = p.inputs x)
    (hnode : q.node node = p.node node) :
    q.standIns node old new = p.standIns node old new := by
  have hcount : ∀ x ∈ l, q.columnCount x = p.columnCount x :=
    h.columnCount_congr (Nat.le_of_eq hsize.symm) hlayout hinputs
  have hexposed : q.exposed new = p.exposed new := by
    have hjoin : (q.op new).isJoin = (p.op new).isJoin := by
      rw [Bool.eq_iff_iff, ← Operator.layout_eq_all_iff, ← Operator.layout_eq_all_iff,
        hlayout new hnew]
    rw [exposed, exposed, hjoin, hinputs new hnew]
  unfold standIns inputs op
  rw [hnode, hexposed, columnsOf, columnsOf]
  refine flatMap_congr fun x hx => ?_
  rw [hcount x]
  split at hx
  · exact h.exposed_subset hnew hx
  · exact mem_singleton.mp hx ▸ hnew

/-- A loop that lets nodes read the new one changes the inputs of none of some arranged nodes, the
new one among them. -/
structure Steady (p : Plan) (l : List NodeId) (old new : NodeId) (nodes : List NodeId) : Prop where
  arranged : p.Arranged l
  new_mem : new ∈ l
  inputs_eq : ∀ x ∈ l, x ∈ nodes → (p.inputs x).map (old.replaced new) = p.inputs x

/-- A loop is steady on nodes that do not read the old one. -/
theorem Steady.of_unread {nodes : List NodeId} (h : p.Arranged l) (hnew : new ∈ l)
    (hunread : ∀ x ∈ l, x ∈ nodes → old ∉ p.inputs x) : p.Steady l old new nodes where
  arranged := h
  new_mem := hnew
  inputs_eq x hx hxnode := NodeId.map_replaced_of_not_mem new (hunread x hx hxnode)

namespace Steady

variable {r : Plan} {nodes done : List NodeId} {a : NodeId} (h : p.Steady l old new nodes)
  (hr : Redirection p r old new mapping done) (hdone : done ⊆ nodes)
include h hr hdone

theorem inputs_kept {x : NodeId} (hx : x ∈ l) : r.inputs x = p.inputs x := by
  by_cases hxdone : x ∈ done
  · rw [hr.inputs_eq hxdone]
    exact h.inputs_eq x hx (hdone hxdone)
  · exact hr.inputs_other hxdone

theorem arranged_kept : r.Arranged l :=
  h.arranged.congr (Nat.le_of_eq hr.size_eq.symm) (fun x _ => hr.op_arity x)
    fun _ hx => h.inputs_kept hr hdone hx

variable (ha : a ∉ done)
include ha

theorem standIns_kept : r.standIns a old new = p.standIns a old new :=
  standIns_congr h.arranged h.new_mem hr.size_eq (fun x _ => hr.op_layout x)
    (fun _ hx => h.inputs_kept hr hdone hx) (hr.node_other a ha)

/-- The next node changes as if it were the first one. -/
theorem concat (hin : a.index < p.arena.size) (hq : r.replaceInput a old new mapping = .ok q) :
    Redirection p q old new mapping (done ++ [a]) := by
  have hstep := replaceInput_redirection (h.arranged_kept hr hdone) h.new_mem
    (hr.size_eq.symm ▸ hin) hq
  have hnode : r.node a = p.node a := hr.node_other a ha
  have hstand := h.standIns_kept hr hdone ha
  refine { hr.toRewired.concat ha hstep.toRewired with
    node_eq := fun n hn => ?_
    found := fun n hn => ?_ }
  · by_cases hna : n = a
    · rw [hna, hstep.node_eq a (mem_singleton_self a), hnode, hstand]
    · rw [hstep.node_other n (by simpa using hna)]
      exact hr.node_eq n ((mem_append.mp hn).resolve_right (by simpa using hna))
  · rcases mem_append.mp hn with hn | hn
    · exact hr.found n hn
    · rw [mem_singleton.mp hn]
      have hfound := hstep.found a (mem_singleton_self a)
      rw [Plan.op, hnode, hstand] at hfound
      exact hfound

end Steady

/-- If a loop over nodes is steady on the new node, it makes the same change to each of them. -/
theorem foldlM_replaceInput_redirection {nodes : List NodeId}
    (hq : nodes.foldlM (fun p n => p.replaceInput n old new mapping) p = .ok q)
    (hnodup : nodes.Nodup) (hin : ∀ n ∈ nodes, n.index < p.arena.size)
    (h : p.Steady l old new nodes) : Redirection p q old new mapping nodes := by
  refine Result.foldlM_induct (motive := fun done r => Redirection p r old new mapping done)
    hq { Rewired.refl p old new mapping with node_eq := nofun, found := nofun } ?_
  rintro done a rest r r' rfl hr hstep
  refine h.concat hr (subset_append_left _ _) (fun hmem => ?_) (hin a (by simp)) hstep
  exact (nodup_append.mp hnodup).2.2 a hmem a mem_cons_self rfl

/-- What stands behind a node stands behind the next one. -/
theorem pair_next {pre post : List NodeId} {n : NodeId} (hnodup : l.Nodup)
    (hl : l = pre ++ old :: new :: post) (hn : [old, n] <+ l) (hne : n ≠ new) :
    n ∈ post ∧ [new, n] <+ l := by
  rw [hl] at hn hnodup
  have hpost := (mem_cons.mp (mem_right_of_pair hn hnodup)).resolve_left hne
  have hsplit : l = (pre ++ [old, new]) ++ post := by rw [hl]; simp
  rw [hsplit]
  exact ⟨hpost, pair_sublist_of_mem (by simp) hpost⟩

/-- A new node right behind the old one depends on nothing that reads the old one. -/
theorem Arranged.steady_to_next {pre post : List NodeId}
    (h : p.Arranged (pre ++ old :: new :: post)) :
    p.Steady (pre ++ [old, new]) old new (p.order.filter fun n => n != new) := by
  have hsplit : pre ++ old :: new :: post = (pre ++ [old, new]) ++ post := by simp
  have hleft : p.Arranged (pre ++ [old, new]) := by
    rw [hsplit] at h
    exact h.left
  refine .of_unread hleft (by simp) fun x hx hxnode hread => ?_
  have hxpost := h.mem_of_reads (hsplit ▸ mem_append_left _ hx) hread
  rcases mem_cons.mp hxpost with hxnew | hxpost
  · exact bne_iff_ne.mp (mem_filter.mp hxnode).2 hxnew
  · exact absurd rfl ((nodup_append.mp (hsplit ▸ h.nodup)).2.2 x hx x hxpost)

theorem Arranged.redirection_to_next {pre post : List NodeId}
    (h : p.Arranged (pre ++ old :: new :: post))
    (hq : p.replaceInputEverywhere old new mapping = .ok q) (hnodup : p.order.Nodup)
    (hin : ∀ n ∈ p.order, n.index < p.arena.size) :
    Redirection p q old new mapping (p.order.filter fun n => n != new) :=
  foldlM_replaceInput_redirection hq (hnodup.filter _) (fun n hn => hin n (mem_filter.mp hn).1)
    h.steady_to_next

/-! ### Redirections that succeed -/

/-- A reference is refused only if the mapping forgets its column or the new node has too few. -/
theorem exists_redirectColumn {columns : List ColumnRef} {c : ColumnRef}
    (hlt : c.source = old →
      ∃ i, mappedPosition old mapping c.index = .ok i ∧ i < columns.length) :
    ∃ d, redirectColumn old new mapping columns c = .ok d := by
  by_cases hold : c.source = old
  · obtain ⟨i, hi, hlt⟩ := hlt hold
    refine ⟨columns[i], ?_⟩
    rw [redirectColumn, if_pos hold, Result.bind_ok hi]
    exact Result.ofOption_eq_ok.mpr (getElem?_eq_getElem hlt)
  · exact ⟨c, redirectColumn_of_ne hold⟩

/-- As many columns stand in as the new node has. -/
theorem length_standIns (h : p.Arranged l) (hnew : new ∈ l) (node : NodeId) :
    (p.standIns node old new).length = p.columnCount new := by
  rw [standIns, length_columnsOf]
  split
  · exact (h.columnCount_eq_sum_exposed hnew).symm
  · exact sum_singleton

/-- A loop over nodes succeeds if it is steady on the new node, and every reference to the old node
and every position at which the old node is read has a place in the new one. -/
theorem foldlM_replaceInput_ok {nodes : List NodeId} (hnodup : nodes.Nodup)
    (hin : ∀ n ∈ nodes, n.index < p.arena.size) (h : p.Steady l old new nodes)
    (hcolumns : ∀ n ∈ nodes, ∀ c ∈ (p.op n).columns, c.source = old →
      ∃ i, mappedPosition old mapping c.index = .ok i ∧ i < p.columnCount new)
    (hpositions : ∀ n ∈ nodes, old ∈ p.inputs n → mapping.isSome → ∀ i ∈ (p.op n).positions,
      ∃ k, mappedPosition old mapping i = .ok k) :
    ∃ q, nodes.foldlM (fun p n => p.replaceInput n old new mapping) p = .ok q ∧
      Redirection p q old new mapping nodes := by
  refine Result.foldlM_ok (motive := fun done r => Redirection p r old new mapping done)
    { Rewired.refl p old new mapping with node_eq := nofun, found := nofun }
    fun done a rest r hsplit hr => ?_
  have ha : a ∉ done := fun hmem => by
    have hnodup : (done ++ a :: rest).Nodup := hsplit ▸ hnodup
    exact (nodup_append.mp hnodup).2.2 a hmem a mem_cons_self rfl
  have hdone : done ⊆ nodes := hsplit ▸ subset_append_left _ _
  have hmem : a ∈ nodes := hsplit ▸ by simp
  -- The node and what stands in are what they were before the loop.
  have hstand := h.standIns_kept hr hdone ha
  have hop : r.op a = p.op a := hr.op_other ha
  have hstep : ∃ r', r.replaceInput a old new mapping = .ok r' := by
    refine ⟨_, replaceInput_eq_ok.mpr
      ⟨_, replacementColumns_eq (h.arranged_kept hr hdone) h.new_mem a, fun c hc => ?_, ?_, rfl⟩⟩
    · rw [hstand]
      refine exists_redirectColumn fun hold => ?_
      rw [length_standIns h.arranged h.new_mem]
      exact hcolumns a hmem c (hop ▸ hc) hold
    · rw [hr.inputs_other ha, hop]
      exact hpositions a hmem
  obtain ⟨r', hr'⟩ := hstep
  exact ⟨r', hr', h.concat hr hdone ha (hin a hmem) hr'⟩

/-- The loop over all nodes succeeds if the new node has the columns of the old one that are
referred to. -/
theorem replaceInputEverywhere_ok (hnodup : p.order.Nodup)
    (hin : ∀ n ∈ p.order, n.index < p.arena.size)
    (h : p.Steady l old new (p.order.filter fun n => n != new))
    (hlt : ∀ n ∈ p.order, n ≠ new → ∀ c ∈ (p.op n).columns, c.source = old →
      c.index < p.columnCount new) :
    ∃ q, p.replaceInputEverywhere old new none = .ok q ∧
      Redirection p q old new none (p.order.filter fun n => n != new) := by
  refine foldlM_replaceInput_ok (hnodup.filter _) (fun n hn => hin n (mem_filter.mp hn).1) h
    (fun n hn c hc hold => ?_) fun _ _ _ hsome => absurd hsome (by simp)
  obtain ⟨hlive, hne⟩ := mem_filter.mp hn
  exact ⟨c.index, rfl, hlt n hlive (bne_iff_ne.mp hne) c hc hold⟩

namespace Redirection

variable {changed : List NodeId} (hr : Redirection p q old new mapping changed) {n x : NodeId}
include hr

/-- A reference of a changed node is a reference from before, or one of the columns that stand
in. -/
theorem mem_columns (hn : n ∈ changed) {c : ColumnRef} (hc : c ∈ (q.op n).columns) :
    (c ∈ (p.op n).columns ∧ c.source ≠ old) ∨
      (∃ d ∈ (p.op n).columns, d.source = old ∧ c ∈ p.standIns n old new) := by
  rw [Plan.op, hr.node_eq n hn, Node.columns_moved] at hc
  obtain ⟨d, hd, rfl⟩ := mem_map.mp hc
  by_cases hdold : d.source = old
  · obtain ⟨e, he⟩ := hr.found n hn d hd
    refine .inr ⟨d, hd, hdold, ?_⟩
    rw [he]
    exact mem_of_redirectColumn hdold he
  · left
    rw [redirectColumn_of_ne hdold]
    exact ⟨hd, hdold⟩

/-! ### What is in sight -/

/-- A node exposes what it exposed, without the old one if it joins and changes. -/
theorem mem_exposed {i : NodeId} (hx : x ∈ p.exposed i)
    (hxold : (p.op i).isJoin → x = old → i ∉ changed) : x ∈ q.exposed i := by
  cases hjoin : (p.op i).isJoin with
  | false =>
      rw [exposed_of_not_join hjoin] at hx
      rwa [exposed_of_not_join ((hr.op_isJoin i).trans hjoin)]
  | true =>
      rw [exposed_of_join hjoin] at hx
      rw [exposed_of_join ((hr.op_isJoin i).trans hjoin)]
      by_cases hold : x = old
      · rwa [hr.inputs_other (hxold hjoin hold)]
      · exact hr.mem_inputs_of_ne hx hold

theorem exposed_other (hn : n ∉ changed) : q.exposed n = p.exposed n := by
  rw [exposed, exposed, hr.op_isJoin, hr.inputs_other hn]

/-- References of changed nodes stay in sight. -/
theorem reads_of_changed (hn : n ∈ changed) (hnew : new ∉ changed)
    (holdJoin : (p.op old).isJoin = false)
    (hjoins : ∀ i ∈ p.inputs n, (p.op i).isJoin → old ∈ p.inputs i → i ∈ changed)
    (hcount : ∀ x ∈ new :: p.exposed new, q.columnCount x = p.columnCount x)
    (hp : ∀ c ∈ (p.op n).columns, c.source ∈ p.reads n ∧
      (c.source ≠ old → c.index < q.columnCount c.source)) :
    ∀ c ∈ (q.op n).columns, c.source ∈ q.reads n ∧ c.index < q.columnCount c.source := by
  intro c hc
  rcases hr.mem_columns hn hc with ⟨hc, hcold⟩ | ⟨d, hd, hdold, hc⟩
  · obtain ⟨hread, hlt⟩ := hp c hc
    refine ⟨?_, hlt hcold⟩
    cases hjoin : (p.op n).isJoin with
    | true =>
        rw [reads_of_join hjoin] at hread
        rw [reads_of_join ((hr.op_isJoin n).trans hjoin)]
        exact hr.mem_inputs_of_ne hread hcold
    | false =>
        obtain ⟨i, hi, hx⟩ := (mem_reads_of_not_join hjoin).mp hread
        have hiold : i ≠ old := by
          rintro rfl
          rw [exposed_of_not_join holdJoin, mem_singleton] at hx
          exact hcold hx
        exact (mem_reads_of_not_join ((hr.op_isJoin n).trans hjoin)).mpr
          ⟨i, hr.mem_inputs_of_ne hi hiold, hr.mem_exposed hx fun _ h => absurd h hcold⟩
  · obtain ⟨hsource, hlt⟩ := mem_columnsOf.mp hc
    split at hsource
    · next hdirect =>
      simp only [Bool.and_eq_true, contains_iff_mem, Bool.not_eq_true'] at hdirect
      refine ⟨?_, by rwa [hcount _ (mem_cons_of_mem _ hsource)]⟩
      refine (mem_reads_of_not_join ((hr.op_isJoin n).trans hdirect.2)).mpr
        ⟨new, hr.mem_inputs_new hn hdirect.1, ?_⟩
      rwa [hr.exposed_other hnew]
    · next hdirect =>
      obtain hsource := mem_singleton.mp hsource
      rw [hsource] at hlt ⊢
      refine ⟨?_, by rwa [hcount new mem_cons_self]⟩
      have hread := (hp d hd).1
      rw [hdold] at hread
      cases hjoin : (p.op n).isJoin with
      | true =>
          rw [reads_of_join hjoin] at hread
          rw [reads_of_join ((hr.op_isJoin n).trans hjoin)]
          exact hr.mem_inputs_new hn hread
      | false =>
          -- The node sees the old one through a join, which reads the new one now.
          obtain ⟨i, hi, hx⟩ := (mem_reads_of_not_join hjoin).mp hread
          have hiold : i ≠ old := by
            rintro rfl
            simp [hi, hjoin] at hdirect
          have hiJoin : (p.op i).isJoin = true := by
            by_contra hi'
            rw [exposed_of_not_join (by simpa using hi'), mem_singleton] at hx
            exact hiold hx.symm
          rw [exposed_of_join hiJoin] at hx
          refine (mem_reads_of_not_join ((hr.op_isJoin n).trans hjoin)).mpr
            ⟨i, hr.mem_inputs_of_ne hi hiold, ?_⟩
          rw [exposed_of_join ((hr.op_isJoin i).trans hiJoin)]
          exact hr.mem_inputs_new (hjoins i hi hiJoin hx) hx

/-- What an unchanged node reads stays in sight, if it sees the old node through no join that
changes. -/
theorem reads_of_unchanged (hn : n ∉ changed)
    (hjoins : ∀ i ∈ p.inputs n, (p.op i).isJoin → old ∈ p.inputs i → i ∉ changed)
    (hx : x ∈ p.reads n) : x ∈ q.reads n := by
  cases hjoin : (p.op n).isJoin with
  | true =>
      rw [reads_of_join hjoin] at hx
      rwa [reads_of_join ((hr.op_isJoin n).trans hjoin), hr.inputs_other hn]
  | false =>
      obtain ⟨i, hi, hx⟩ := (mem_reads_of_not_join hjoin).mp hx
      refine (mem_reads_of_not_join ((hr.op_isJoin n).trans hjoin)).mpr
        ⟨i, by rwa [hr.inputs_other hn], hr.mem_exposed hx fun hiJoin hxold => ?_⟩
      rw [exposed_of_join hiJoin] at hx
      exact hjoins i hi hiJoin (hxold ▸ hx)

/-- What is arranged stays so, if the new node stands before the readers of the old one. -/
theorem arranged (h : p.Arranged l) (hbefore : ∀ n ∈ changed, old ∈ p.inputs n → [new, n] <+ l) :
    q.Arranged l where
  toOrdered := hr.ordered h.toOrdered fun n hn _ => hbefore n hn
  arity id hid := by
    rw [hr.op_arity]
    by_cases hchanged : id ∈ changed
    · rw [hr.inputs_eq hchanged, length_map]
      exact h.arity id hid
    · rw [hr.inputs_other hchanged]
      exact h.arity id hid

/-- Numbers of columns satisfy the equations of the redirected plan if they satisfy those of the
plan before with the new node in place of the old one. -/
theorem columnCount_eq (hq : q.Arranged l) {g : NodeId → Nat}
    (hchanged : ∀ x ∈ l, x ∈ changed →
      g x = (p.op x).layout.width ((p.inputs x).map fun i => g (old.replaced new i)))
    (hother : ∀ x ∈ l, x ∉ changed → g x = (p.op x).layout.width ((p.inputs x).map g)) :
    ∀ x ∈ l, q.columnCount x = g x := by
  refine hq.columnCount_unique fun x hx => ?_
  rw [hr.op_layout]
  by_cases hx' : x ∈ changed
  · rw [hr.inputs_eq hx', map_map]
    exact hchanged x hx hx'
  · rw [hr.inputs_other hx']
    exact hother x hx hx'

/-- If the new node is as wide as the old one, no width changes. -/
theorem columnCount_of_eq (h : p.Arranged l) (hq : q.Arranged l)
    (hcount : p.columnCount new = p.columnCount old) :
    ∀ x ∈ l, q.columnCount x = p.columnCount x := by
  have hreplaced : ∀ i, p.columnCount (old.replaced new i) = p.columnCount i := by
    intro i
    by_cases hi : i = old
    · rw [hi, NodeId.replaced_self, hcount]
    · rw [NodeId.replaced_of_ne new hi]
  refine hr.columnCount_eq hq (fun x hx _ => ?_) fun x hx _ => h.columnCount_eq hx
  rw [h.columnCount_eq hx, map_congr_left fun i _ => hreplaced i]

/-- A redirected plan is well-formed if the new node stands before everything that changes, and
if joins over the old node change together with the nodes that see it there. -/
theorem wellFormed (h : p.WellFormed) (hnew : new ∉ changed)
    (holdJoin : (p.op old).isJoin = false)
    (hbefore : ∀ n ∈ changed, old ∈ p.inputs n → [new, n] <+ p.order)
    (hjoins : ∀ n ∈ p.order, ∀ i ∈ p.inputs n, (p.op i).isJoin → old ∈ p.inputs i →
      (i ∈ changed ↔ n ∈ changed))
    (hcount : ∀ x ∈ new :: p.exposed new, q.columnCount x = p.columnCount x)
    (hlt : ∀ n ∈ p.order, ∀ c ∈ (p.op n).columns, (n ∈ changed → c.source ≠ old) →
      c.index < q.columnCount c.source) : q.WellFormed := by
  refine wellFormed_of_reads ?_ ?_ ?_ ?_ <;> rw [hr.order_eq]
  · exact hr.arranged h.arranged hbefore
  · exact fun n hn => hr.fieldsMatch (h.fieldsMatch n hn)
  · exact fun n hn => hr.bound (h.bound n hn)
  · intro n hn
    by_cases hchanged : n ∈ changed
    · refine hr.reads_of_changed hchanged hnew holdJoin (fun i hi hiJoin hold =>
        (hjoins n hn i hi hiJoin hold).mpr hchanged) hcount fun c hc => ?_
      exact ⟨(h.reads_of_mem hn hc).1, fun hne => hlt n hn c hc fun _ => hne⟩
    · intro c hc
      rw [hr.op_other hchanged] at hc
      refine ⟨hr.reads_of_unchanged hchanged (fun i hi hiJoin hold => ?_)
        (h.reads_of_mem hn hc).1, hlt n hn c hc fun hmem => absurd hmem hchanged⟩
      exact fun hi' => hchanged ((hjoins n hn i hi hiJoin hold).mp hi')

/-- A redirection to a node right behind the old one keeps a plan well-formed, if everything
further back changes. -/
theorem wellFormed_next {pre post : List NodeId} (h : p.WellFormed)
    (horder : p.order = pre ++ old :: new :: post) (holdJoin : (p.op old).isJoin = false)
    (hnewJoin : (p.op new).isJoin = false) (hsub : changed ⊆ p.order) (hnew : new ∉ changed)
    (hpost : post ⊆ changed) (hcount : q.columnCount new = p.columnCount new)
    (hlt : ∀ n ∈ p.order, ∀ c ∈ (p.op n).columns, (n ∈ changed → c.source ≠ old) →
      c.index < q.columnCount c.source) : q.WellFormed := by
  have hnext : ∀ n, [old, n] <+ p.order → n ≠ new → n ∈ post ∧ [new, n] <+ p.order := fun n =>
    pair_next h.nodup horder
  refine hr.wellFormed h hnew holdJoin (fun n hn hread => ?_) (fun n hn i hi hiJoin hread => ?_)
    ?_ hlt
  · refine (hnext n (h.arranged.before n (hsub hn) old hread) ?_).2
    rintro rfl
    exact hnew hn
  · have hold := h.arranged.before i (h.arranged.mem_of_input hn hi) old hread
    have hpair := h.arranged.before n hn i hi
    have hiNew : i ≠ new := by
      rintro rfl
      rw [hnewJoin] at hiJoin
      cases hiJoin
    obtain ⟨hiPost, hnewBefore⟩ := hnext i hold hiNew
    have hnNew : n ≠ new := by
      rintro rfl
      exact not_pair_swap h.nodup hnewBefore hpair
    have hnPost := (hnext n (pair_sublist_trans h.nodup hold hpair) hnNew).1
    exact ⟨fun _ => hpost hnPost, fun _ => hpost hiPost⟩
  · rw [exposed_of_not_join hnewJoin]
    simpa using hcount

end Redirection

end Plan

end QueryPlan
