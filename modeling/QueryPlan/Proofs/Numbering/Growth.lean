import QueryPlan.Proofs.Expr.Subqueries
import QueryPlan.Proofs.Plan.Redirection
import QueryPlan.Proofs.Scope.Bypass
/-!
# QueryPlan.Proofs.Numbering.Growth

**How an arena grows.** A step that takes build ids adds a node for each of them, in order, behind
the nodes that are there. The nodes from before keep their ids whatever else becomes of them, and
no expression of the arena shows a subquery that none showed before. All this is
`Plan.Grows`, which is closed under composition, so it passes from edits to loops and from loops
to passes. It speaks of the whole arena: nodes that are not live are nodes too.
-/

namespace QueryPlan

open List

/-- The subqueries in the expressions of an operator. -/
def Operator.subqueries (op : Operator) : List Subquery := op.exprs.flatMap Expr.subqueries

namespace Operator

variable {x : Subquery} {op : Operator}

theorem mem_subqueries : x ∈ op.subqueries ↔ ∃ e ∈ op.exprs, x ∈ e.subqueries := mem_flatMap

theorem subqueries_of_exprs_nil (h : op.exprs = []) : op.subqueries = [] := by
  rw [subqueries, h, flatMap_nil]

@[simp] theorem subqueries_mapColumns (f : ColumnRef → ColumnRef) (op : Operator) :
    (op.mapExprs (Expr.mapColumns f)).subqueries = op.subqueries := by
  rw [subqueries, subqueries, exprs_mapExprs, flatMap_map]
  exact flatMap_congr fun e _ => Expr.subqueries_mapColumns f e

@[simp] theorem subqueries_mapPositions (f : Nat → Nat) (op : Operator) :
    (op.mapPositions f).subqueries = op.subqueries := by
  rw [subqueries, subqueries, exprs_mapPositions]

end Operator

theorem Node.subqueries_moved (n : Node) (old new : NodeId) (mapping : Option ColumnMap)
    (columns : List ColumnRef) :
    (n.moved old new mapping columns).op.subqueries = n.op.subqueries := by
  unfold moved movedOp
  dsimp only
  split <;> simp

namespace Plan

variable {p q r : Plan} {id : NodeId} {n next next' last : Nat}

/-- The build ids of all nodes, live or not, in the order of the arena. -/
def buildIds (p : Plan) : List Nat := p.arena.toList.map Node.buildId

/-- The subqueries in the expressions of all nodes, live or not. -/
def subqueries (p : Plan) : List Subquery := p.arena.toList.flatMap fun n => n.op.subqueries

theorem mem_subqueries {x : Subquery} : x ∈ p.subqueries ↔ ∃ id, x ∈ (p.op id).subqueries := by
  rw [subqueries, mem_flatMap]
  constructor
  · rintro ⟨n, hn, hx⟩
    obtain ⟨i, hi⟩ := getElem?_of_mem hn
    rw [Array.getElem?_toList] at hi
    refine ⟨⟨i⟩, ?_⟩
    rwa [Plan.op, node, hi]
  · rintro ⟨id, hx⟩
    cases hnode : p.arena[id.index]? with
    | none =>
        rw [Plan.op, node, hnode] at hx
        exact absurd hx not_mem_nil
    | some n =>
        rw [Plan.op, node, hnode] at hx
        exact ⟨n, mem_of_getElem? (by rwa [Array.getElem?_toList]), hx⟩

@[simp] theorem buildIds_push (p : Plan) (n : Node) :
    (p.push n).buildIds = p.buildIds ++ [n.buildId] := by
  simp [buildIds, push, alloc]

@[simp] theorem subqueries_push (p : Plan) (n : Node) :
    (p.push n).subqueries = p.subqueries ++ n.op.subqueries := by
  simp [subqueries, push, alloc]

theorem subqueries_op_subset (p : Plan) (id : NodeId) : (p.op id).subqueries ⊆ p.subqueries :=
  fun _ hx => mem_subqueries.mpr ⟨id, hx⟩

/-- A step that took the build ids from `next` up to `next'` has added a node for each of them. The
other nodes have their ids from before, and no node shows a subquery that none showed before. -/
structure Grows (p : Plan) (next : Nat) (q : Plan) (next' : Nat) : Prop where
  next_le : next ≤ next'
  buildIds_eq : q.buildIds = p.buildIds ++ range' next (next' - next)
  subqueries_subset : q.subqueries ⊆ p.subqueries

namespace Grows

theorem refl (p : Plan) (n : Nat) : p.Grows n p n :=
  ⟨Nat.le_refl n, by simp, Subset.refl _⟩

theorem trans (h : p.Grows next q n) (h' : q.Grows n r next') : p.Grows next r next' where
  next_le := Nat.le_trans h.next_le h'.next_le
  buildIds_eq := by
    have hsplit : next' - next = (n - next) + (next' - n) := by
      have := h.next_le
      have := h'.next_le
      omega
    have hstart : next + (n - next) = n := by
      have := h.next_le
      omega
    rw [h'.buildIds_eq, h.buildIds_eq, append_assoc, hsplit, ← range'_append_1, hstart]
  subqueries_subset := Subset.trans h'.subqueries_subset h.subqueries_subset

/-- A step that takes no build id. -/
theorem of_buildIds_eq (hids : q.buildIds = p.buildIds) (hsub : q.subqueries ⊆ p.subqueries)
    (n : Nat) : p.Grows n q n :=
  ⟨Nat.le_refl n, by simp [hids], hsub⟩

/-- What is live makes no difference. -/
theorem of_arena_eq (h : q.arena = p.arena) (n : Nat) : p.Grows n q n :=
  of_buildIds_eq (by rw [buildIds, buildIds, h]) (by rw [subqueries, subqueries, h]; exact Subset.refl _) n

variable (h : p.Grows next q n)
include h

/-- A node of the arena shows what some node showed before. -/
theorem subqueries_op (id : NodeId) : (q.op id).subqueries ⊆ p.subqueries :=
  Subset.trans (q.subqueries_op_subset id) h.subqueries_subset

/-- Then one node changes and keeps its id. -/
theorem modify {f : Node → Node} (hid : (f (q.node id)).buildId = (q.node id).buildId)
    (hsub : (f (q.node id)).op.subqueries ⊆ p.subqueries) : p.Grows next (q.modify id f) n := by
  by_cases hin : id.index < q.arena.size
  · refine ⟨h.next_le, ?_, fun x hx => ?_⟩
    · rw [← h.buildIds_eq]
      apply ext_getElem?
      intro i
      simp only [buildIds, Plan.modify, getElem?_map, Array.getElem?_toList, Array.getElem?_modify]
      split
      · next hi =>
        subst hi
        have hnode : q.arena[id.index]? = some (q.node id) := by
          rw [node, Array.getElem?_eq_getElem hin]
          rfl
        rw [hnode]
        exact congrArg some hid
      · rfl
    · obtain ⟨a, hx⟩ := mem_subqueries.mp hx
      by_cases ha : a = id
      · rw [ha, Plan.op, node_modify_self _ hin] at hx
        exact hsub hx
      · rw [Plan.op, node_modify_of_ne _ ha] at hx
        exact h.subqueries_op a hx
  · rwa [modify_of_size_le _ (Nat.le_of_not_lt hin)]

theorem setOp {op : Operator} (hsub : op.subqueries ⊆ p.subqueries) :
    p.Grows next (q.setOp id op) n :=
  h.modify (f := fun n => { n with op := op }) rfl hsub

/-- Then a node is added, with the next id. -/
theorem alloc {inputs : List NodeId} {op : Operator} (hsub : op.subqueries ⊆ p.subqueries) :
    p.Grows next (q.alloc (.make n inputs op)) (n + 1) where
  next_le := Nat.le_succ_of_le h.next_le
  buildIds_eq := by
    have hlast : n + 1 - next = (n - next) + 1 := Nat.succ_sub h.next_le
    have hplace : next + (n - next) = n := Nat.add_sub_of_le h.next_le
    rw [hlast, range'_1_concat, hplace, ← append_assoc, ← h.buildIds_eq]
    simp [buildIds, Plan.alloc, Node.make]
  subqueries_subset := by
    rw [subqueries, Plan.alloc, Array.toList_push, flatMap_append, flatMap_singleton]
    exact append_subset.mpr ⟨h.subqueries_subset, hsub⟩

/-- Then nodes come and go. -/
theorem withArena (harena : r.arena = q.arena) : p.Grows next r n :=
  h.trans (of_arena_eq harena n)

omit h

/-- What each step of a loop adds, the loop adds. -/
theorem foldlM {α : Type} {f : Plan → α → Result Plan} {as : List α}
    (hq : as.foldlM f p = .ok q) (step : ∀ r a r', f r a = .ok r' → r.Grows n r' n) :
    p.Grows n q n :=
  Result.foldlM_keeps (motive := fun r => p.Grows n r n) hq (.refl p n)
    fun a _ r r' hr hstep => hr.trans (step r a r' hstep)

/-- What each step of a loop that takes ids adds, the loop adds. -/
theorem foldlM_fresh {α : Type} {f : Plan → α → Fresh Plan} {as : List α}
    (hq : as.foldlM f p next = .ok (q, next'))
    (step : ∀ r a r' n n', f r a n = .ok (r', n') → r.Grows n r' n') : p.Grows next q next' := by
  rw [Fresh.foldlM_eq] at hq
  exact Result.foldlM_keeps (motive := fun s => p.Grows next s.1 s.2) hq (.refl p next)
    fun a _ s t hs hstep => hs.trans (step s.1 a t.1 s.2 t.2 hstep)

/-! ### Reading another node -/

theorem replaceInput {node old new : NodeId} {mapping : Option ColumnMap}
    (h : p.replaceInput node old new mapping = .ok q) (n : Nat) : p.Grows n q n := by
  obtain ⟨columns, -, -, -, rfl⟩ := replaceInput_eq_ok.mp h
  refine (refl p n).modify rfl ?_
  rw [Node.subqueries_moved]
  exact subqueries_op_subset p node

theorem replaceInputEverywhere {old new : NodeId} {mapping : Option ColumnMap}
    (h : p.replaceInputEverywhere old new mapping = .ok q) (n : Nat) : p.Grows n q n :=
  foldlM h fun _ _ _ hstep => replaceInput hstep n

theorem bypass {mapping : Option ColumnMap} (h : p.bypass id mapping = .ok q) (n : Nat) :
    p.Grows n q n := by
  obtain ⟨input, r, -, hr, rfl⟩ := bypass_eq_ok h
  exact (replaceInputEverywhere hr n).withArena rfl

end Grows

end Plan

end QueryPlan
