import QueryPlan.Proofs.Flattening.Chain
/-!
# QueryPlan.Proofs.Flattening.Retirement

**Taking a chain out of a plan.** References to the lower joins of a chain are moved to the topmost
one first (`Plan.node_redirectAll`). Then the nodes of the chain retire from the top down. Only the
retirement of the first one changes what a node reads: each of the others is read by the one before
it, and that is gone (`Retires.of_retireAll`).
-/

namespace QueryPlan

open List

/-- A reference, moved to another node if it is to one of some nodes. -/
def redirectedColumn (old : List NodeId) (new : NodeId) (c : ColumnRef) : ColumnRef :=
  if c.source ∈ old then ⟨new, c.index⟩ else c

/-- Several redirections to one node are a change of columns. -/
theorem Expr.foldl_redirect (old : List NodeId) (new : NodeId) (e : Expr) :
    old.foldl (fun e o => e.redirect o new) e = e.mapColumns (redirectedColumn old new) := by
  induction old generalizing e with
  | nil => exact (mapColumns_id e).symm
  | cons o old ih =>
      rw [foldl_cons, ih, redirect, mapColumns_mapColumns]
      refine mapColumns_congr fun c _ => ?_
      simp only [redirectedColumn, mem_cons]
      split <;> simp_all

namespace Plan

variable {p q r : Plan} {x flattened top : NodeId}

/-! ### References to lower joins -/

/-- Giving nodes other operators, one after another. -/
theorem node_foldl_setOp (f : Operator → Operator) (nodes : List NodeId) (hnodup : nodes.Nodup)
    (hin : ∀ n ∈ nodes, n.index < p.arena.size) :
    (nodes.foldl (fun p n => p.setOp n (f (p.op n))) p).arena.size = p.arena.size ∧
      (nodes.foldl (fun p n => p.setOp n (f (p.op n))) p).order = p.order ∧
      ∀ x, (nodes.foldl (fun p n => p.setOp n (f (p.op n))) p).node x =
        if x ∈ nodes then { p.node x with op := f (p.op x) } else p.node x := by
  induction nodes generalizing p with
  | nil => simp
  | cons n rest ih =>
      obtain ⟨hn, hrest⟩ := nodup_cons.mp hnodup
      have hin' : ∀ x ∈ rest, x.index < (p.setOp n (f (p.op n))).arena.size := fun x hx => by
        rw [size_setOp]
        exact hin x (mem_cons_of_mem _ hx)
      obtain ⟨hsize, horder, hnode⟩ := ih hrest hin'
      rw [foldl_cons]
      refine ⟨by rw [hsize, size_setOp], by rw [horder, order_setOp], fun x => ?_⟩
      rw [hnode]
      by_cases hxn : x = n
      · subst hxn
        rw [if_neg hn, if_pos mem_cons_self, setOp, node_modify_self _ (hin x mem_cons_self)]
      · have hsame := node_setOp_of_ne (p := p) (f (p.op n)) hxn
        rw [op_congr hsame, hsame]
        simp [hxn]

/-- Moving references is a plain change of expressions, at one node after another. -/
theorem redirectAll_eq (p : Plan) (except : NodeId) (old : List NodeId) (new : NodeId) :
    p.redirectAll except old new =
      (p.order.filter fun n => n != except).foldl (fun p n => p.setOp n
        ((p.op n).mapExprs (Expr.mapColumns (redirectedColumn old new)))) p := by
  have hredirect := funext (Expr.foldl_redirect old new)
  unfold redirectAll
  congr 1
  funext p n
  rw [← Operator.mapExprsM_run]
  exact congrArg (fun f => p.setOp n ((p.op n).mapExprsM (m := Id) f).run) hredirect

/-- Moving references changes the expressions of the live nodes but one. -/
theorem node_redirectAll (hnodup : p.order.Nodup) (hin : ∀ n ∈ p.order, n.index < p.arena.size)
    (except : NodeId) (old : List NodeId) (new : NodeId) :
    (p.redirectAll except old new).arena.size = p.arena.size ∧
      (p.redirectAll except old new).order = p.order ∧
      ∀ x, (p.redirectAll except old new).node x = if x ∈ p.order ∧ x ≠ except then
        { p.node x with op := (p.op x).mapExprs (Expr.mapColumns (redirectedColumn old new)) }
        else p.node x := by
  rw [redirectAll_eq]
  obtain ⟨hsize, horder, hnode⟩ := node_foldl_setOp
    (fun op => op.mapExprs (Expr.mapColumns (redirectedColumn old new)))
    (p.order.filter fun n => n != except) (hnodup.filter _)
    fun n hn => hin n (mem_filter.mp hn).1
  refine ⟨hsize, horder, fun x => ?_⟩
  rw [hnode]
  simp [bne_iff_ne]

theorem SameShape.redirectAll (hnodup : p.order.Nodup)
    (hin : ∀ n ∈ p.order, n.index < p.arena.size) (except : NodeId) (old : List NodeId)
    (new : NodeId) : SameShape p (p.redirectAll except old new) := by
  obtain ⟨hsize, -, hnode⟩ := node_redirectAll hnodup hin except old new
  refine ⟨hsize, fun x => ?_, fun x => ?_, fun x => ?_⟩
  · rw [inputs, hnode]
    split <;> rfl
  · rw [Plan.op, hnode]
    split
    · exact Operator.layout_mapExprs _ _
    · rfl
  · rw [Plan.op, hnode]
    split
    · exact Operator.arity_mapExprs _ _
    · rfl

/-! ### Retiring one node after another -/

/-- Nodes have left a plan that nothing else in it reads, in favour of a flattened one. -/
structure Retires (p q : Plan) (flattened : NodeId) (gone : List NodeId) : Prop
    extends SameShape p q where
  order_eq : q.order = p.order.filter fun n => n ∉ gone
  fieldsMatch : ∀ x, (p.op x).FieldsMatch → (q.op x).FieldsMatch
  /-- Only references to what has left change. -/
  node_eq : ∀ n ∈ p.order, n ∉ gone →
    (n ≠ flattened → ∀ c ∈ (p.op n).columns, c.source ∉ gone) → q.node n = p.node n

namespace Retires

variable {gone : List NodeId} {o : NodeId}

theorem refl (p : Plan) (flattened : NodeId) : Retires p p flattened [] where
  toSameShape := .refl p
  order_eq := by simp
  fieldsMatch _ h := h
  node_eq _ _ _ _ := rfl

/-- One more node leaves, which only nodes that have left read. -/
theorem concat (hr : Retires p r flattened gone) (hnodup : p.order.Nodup)
    (hin : ∀ n ∈ p.order, n.index < p.arena.size)
    (hread : ∀ n ∈ p.order, n ≠ flattened → o ∈ p.inputs n → n ∈ gone) (htop : o ≠ top)
    (hq : r.retire flattened top o = .ok q) : Retires p q flattened (gone ++ [o]) := by
  obtain ⟨s, hs, hq⟩ := Result.bind_eq_ok.mp hq
  rw [if_neg htop] at hq
  cases Result.pure_eq_ok.mp hq
  have hmem : ∀ n, n ∈ r.order ↔ n ∈ p.order ∧ n ∉ gone := fun n => by
    rw [hr.order_eq]
    simp
  have hrewired := replaceInputEverywhere_rewired hs (hr.order_eq ▸ hnodup.filter _) fun n hn =>
    hr.size_eq ▸ hin n ((hmem n).mp hn).1
  have hunread : ∀ n ∈ r.order.filter fun n => n != flattened, o ∉ p.inputs n := by
    intro n hn hno
    obtain ⟨hn, hne⟩ := mem_filter.mp hn
    obtain ⟨hn, hgone⟩ := (hmem n).mp hn
    exact hgone (hread n hn (bne_iff_ne.mp hne) hno)
  have hshape : SameShape r s := by
    refine ⟨hrewired.size_eq, fun n => ?_, hrewired.op_layout, hrewired.op_arity⟩
    by_cases hchanged : n ∈ r.order.filter fun n => n != flattened
    · rw [hrewired.inputs_eq hchanged]
      refine (map_congr_left fun i hi => ?_).trans (map_id _)
      refine NodeId.replaced_of_ne flattened fun hio => hunread n hchanged ?_
      rwa [← hio, ← hr.inputs_eq]
    · exact hrewired.inputs_other hchanged
  refine { hr.toSameShape.trans (hshape.trans (.of_arena_eq rfl)) with
    order_eq := ?_
    fieldsMatch := fun x h => hrewired.fieldsMatch (hr.fieldsMatch x h)
    node_eq := fun n hn hgone hcolumns => ?_ }
  · rw [order_remove, hrewired.order_eq, hr.order_eq, filter_filter]
    refine filter_congr fun n _ => ?_
    rw [Bool.eq_iff_iff]
    simp [and_comm]
  · obtain ⟨hgone, -⟩ := not_or.mp (mem_append.not.mp hgone)
    have hsame := hr.node_eq n hn hgone fun hne c hc h => hcolumns hne c hc (mem_append_left _ h)
    rw [node_remove]
    by_cases hchanged : n ∈ r.order.filter fun n => n != flattened
    · have hne : n ≠ flattened := bne_iff_ne.mp (mem_filter.mp hchanged).2
      obtain ⟨columns, hmoved⟩ := hrewired.node_moved n hchanged
      rw [hmoved, hsame]
      refine moved_eq_self (hunread n hchanged) fun c hc hco => ?_
      exact hcolumns hne c hc (mem_append_right _ (hco ▸ mem_singleton_self o))
    · rw [hrewired.node_other n hchanged, hsame]

/-- If each of some nodes is read by those before it only, taking them out from the first one on
leaves the inputs of the others as they are. -/
theorem of_retireAll (hnodup : p.order.Nodup) (hin : ∀ n ∈ p.order, n.index < p.arena.size)
    (htop : top ∉ gone) (hread : ∀ done o rest, gone = done ++ o :: rest →
      ∀ n ∈ p.order, n ≠ flattened → o ∈ p.inputs n → n ∈ done)
    (hq : p.retireAll flattened top gone = .ok q) : Retires p q flattened gone := by
  refine Result.foldlM_induct (motive := fun done r => Retires p r flattened done)
    hq (.refl p flattened) fun done o rest r r' hsplit hr hstep => ?_
  refine hr.concat hnodup hin (hread done o rest hsplit) (fun h => htop ?_) hstep
  rw [hsplit, ← h]
  simp

end Retires

end Plan

end QueryPlan
