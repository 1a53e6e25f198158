import QueryPlan.Proofs.Plan.Redirection
/-!
# QueryPlan.Proofs.Plan.Renaming

**Other handles for the nodes that a node reads.** If a node takes the place of another one and is
no join itself, every reader reads the same columns under the new handle: the inputs and the
references of a node are renamed (`Node.renamed`), and nothing else about it changes
(`replaceInputEverywhere_renamed`). Renamings compose, so what a whole pass does to a node is one
renaming, to the nodes that the pass puts on top (`topOf`).
-/

namespace QueryPlan

open List

/-- The same column under the new handle of its node. -/
def ColumnRef.renamed (σ : NodeId → NodeId) (c : ColumnRef) : ColumnRef := ⟨σ c.source, c.index⟩

/-- The node with other handles for the nodes that it reads. -/
def Node.renamed (σ : NodeId → NodeId) (n : Node) : Node :=
  { n with
    inputs := n.inputs.map σ
    op := n.op.mapExprs (Expr.mapColumns (ColumnRef.renamed σ)) }

namespace Node

variable {σ τ : NodeId → NodeId} {n : Node}

@[simp] theorem inputs_renamed (σ : NodeId → NodeId) (n : Node) :
    (n.renamed σ).inputs = n.inputs.map σ := rfl

@[simp] theorem op_renamed (σ : NodeId → NodeId) (n : Node) :
    (n.renamed σ).op = n.op.mapExprs (Expr.mapColumns (ColumnRef.renamed σ)) := rfl

theorem renamed_renamed (σ τ : NodeId → NodeId) (n : Node) :
    (n.renamed σ).renamed τ = n.renamed fun i => τ (σ i) := by
  have hcolumns : (fun e => Expr.mapColumns (ColumnRef.renamed τ)
      (Expr.mapColumns (ColumnRef.renamed σ) e)) =
      Expr.mapColumns (ColumnRef.renamed fun i => τ (σ i)) :=
    funext fun e => Expr.mapColumns_mapColumns _ _ e
  rw [renamed, inputs_renamed, op_renamed, map_map, Operator.mapExprs_mapExprs, hcolumns]
  rfl

theorem renamed_congr (hinputs : ∀ i ∈ n.inputs, σ i = τ i)
    (hcolumns : ∀ c ∈ n.op.columns, σ c.source = τ c.source) : n.renamed σ = n.renamed τ := by
  have hop : n.op.mapExprs (Expr.mapColumns (ColumnRef.renamed σ)) =
      n.op.mapExprs (Expr.mapColumns (ColumnRef.renamed τ)) :=
    Operator.mapExprs_congr fun e he => Expr.mapColumns_congr fun c hc => by
      rw [ColumnRef.renamed, ColumnRef.renamed,
        hcolumns c (Operator.mem_columns.mpr ⟨e, he, hc⟩)]
  rw [renamed, renamed, map_congr_left hinputs, hop]

theorem renamed_id (n : Node) : n.renamed (fun i => i) = n := by
  have hcolumns : Expr.mapColumns (ColumnRef.renamed fun i => i) = fun e => e :=
    funext Expr.mapColumns_id
  rw [renamed, hcolumns, Operator.mapExprs_id, map_id']

/-- A node stays that reads and refers to nothing with another handle. -/
theorem renamed_eq_self (hinputs : ∀ i ∈ n.inputs, σ i = i)
    (hcolumns : ∀ c ∈ n.op.columns, σ c.source = c.source) : n.renamed σ = n :=
  (renamed_congr hinputs hcolumns).trans n.renamed_id

end Node

namespace Plan

variable {p q : Plan} {node old new : NodeId}

/-- The node that readers come to read in place of a node: the one that a pass puts on top of it, if
there is one. -/
def topOf (upper : NodeId → Option NodeId) (id : NodeId) : NodeId := (upper id).getD id

theorem topOf_update_self (upper : NodeId → Option NodeId) (id n : NodeId) :
    topOf (Function.update upper id (some n)) id = n := by
  rw [topOf, Function.update_self]
  rfl

theorem topOf_update_of_ne (upper : NodeId → Option NodeId) {id n x : NodeId} (hx : x ≠ id) :
    topOf (Function.update upper id (some n)) x = topOf upper x := by
  rw [topOf, topOf, Function.update_of_ne hx]

/-- One more node is on top of no other node if it is new. -/
theorem update_inj {upper : NodeId → Option NodeId} {id n : NodeId}
    (hinj : ∀ a b k, upper a = some k → upper b = some k → a = b) (hnew : ∀ a, upper a ≠ some n) :
    ∀ a b k, Function.update upper id (some n) a = some k →
      Function.update upper id (some n) b = some k → a = b := by
  intro a b k ha hb
  by_cases haid : a = id <;> by_cases hbid : b = id
  · rw [haid, hbid]
  · rw [haid, Function.update_self] at ha
    rw [Function.update_of_ne hbid, ← ha] at hb
    exact absurd hb (hnew b)
  · rw [hbid, Function.update_self] at hb
    rw [Function.update_of_ne haid, ← hb] at ha
    exact absurd ha (hnew a)
  · rw [Function.update_of_ne haid] at ha
    rw [Function.update_of_ne hbid] at hb
    exact hinj a b k ha hb

/-- One more node on top of another one is one more renaming. -/
theorem replaced_topOf {upper : NodeId → Option NodeId} {id n x : NodeId} (hnone : upper id = none)
    (hne : x ≠ id → topOf upper x ≠ id) :
    id.replaced n (topOf upper x) = topOf (Function.update upper id (some n)) x := by
  by_cases hx : x = id
  · rw [hx, topOf_update_self, topOf, hnone]
    exact NodeId.replaced_self id n
  · rw [topOf_update_of_ne upper hx, NodeId.replaced_of_ne _ (hne hx)]

/-- Some nodes of a plan have other handles for the nodes that they read. -/
structure Renamed (p q : Plan) (σ : NodeId → NodeId) (changed : List NodeId) : Prop where
  order_eq : q.order = p.order
  size_eq : q.arena.size = p.arena.size
  node_eq : ∀ n ∈ changed, q.node n = (p.node n).renamed σ
  node_other : ∀ n, n ∉ changed → q.node n = p.node n

/-- The columns of a node that is no join stand under its own handle. -/
theorem replacementColumns_of_not_join {columns : List ColumnRef}
    (hnew : (p.op new).isJoin = false)
    (h : p.replacementColumns node old new = .ok columns) :
    ∃ width, columns = ColumnRef.range new width := by
  have hwidth : (p.width new >>= fun w => .ok (ColumnRef.range new w)) = .ok columns := by
    unfold replacementColumns at h
    rw [output_of_not_join hnew] at h
    split at h
    · exact h
    · exact h
  obtain ⟨w, -, hw⟩ := Result.bind_eq_ok.mp hwidth
  exact ⟨w, (Except.ok.inj hw).symm⟩

/-- A reference to the old node is found under the new handle at the same position. -/
theorem redirectColumn_range {width : Nat} {c d : ColumnRef}
    (h : redirectColumn old new none (ColumnRef.range new width) c = .ok d) :
    d = c.renamed (old.replaced new) := by
  by_cases hc : c.source = old
  · rw [redirectColumn, if_pos hc] at h
    have hget : (ColumnRef.range new width)[c.index]? = some d := Result.ofOption_eq_ok.mp h
    obtain ⟨_, hd⟩ := List.getElem?_eq_some_iff.mp hget
    rw [← hd, ColumnRef.renamed, hc, NodeId.replaced_self]
    simp [ColumnRef.range]
  · rw [redirectColumn_of_ne hc] at h
    rw [← Except.ok.inj h, ColumnRef.renamed, NodeId.replaced_of_ne new hc]

/-- A node that reads another one in place of the old one, both with the same positions, is
renamed. -/
theorem replaceInput_renamed (hnode : node.index < p.arena.size) (hnew : (p.op new).isJoin = false)
    (hq : p.replaceInput node old new none = .ok q) :
    Renamed p q (old.replaced new) [node] := by
  obtain ⟨columns, hcolumns, hfound, -, rfl⟩ := replaceInput_eq_ok.mp hq
  obtain ⟨width, rfl⟩ := replacementColumns_of_not_join hnew hcolumns
  refine ⟨rfl, by simp, fun n hn => ?_, fun n hn => node_modify_of_ne _ (by simpa using hn)⟩
  obtain rfl := mem_singleton.mp hn
  rw [node_modify_self _ hnode, Node.moved, Node.movedOp, if_neg (by simp)]
  have hop : (p.node n).op.mapExprs (Expr.mapColumns fun c =>
      Result.valueOr c (redirectColumn old new none (ColumnRef.range new width) c)) =
      (p.node n).op.mapExprs (Expr.mapColumns (ColumnRef.renamed (old.replaced new))) := by
    refine Operator.mapExprs_congr fun e he => Expr.mapColumns_congr fun c hc => ?_
    obtain ⟨d, hd⟩ := hfound c (Operator.mem_columns.mpr ⟨e, he, hc⟩)
    rw [hd, ← redirectColumn_range hd]
    rfl
  rw [hop]
  rfl

/-- If a node that is no join takes the place of another one, its readers are renamed. -/
theorem replaceInputEverywhere_renamed (hq : p.replaceInputEverywhere old new none = .ok q)
    (hnodup : p.order.Nodup) (hin : ∀ n ∈ p.order, n.index < p.arena.size)
    (hnew : (p.op new).isJoin = false) :
    Renamed p q (old.replaced new) (p.order.filter fun n => n != new) := by
  refine Result.foldlM_induct (motive := fun done r => Renamed p r (old.replaced new) done) hq
    ⟨rfl, rfl, nofun, fun _ _ => rfl⟩ fun done a rest r r' hsplit hr hstep => ?_
  have hmem : ∀ {n}, n ∈ done ++ a :: rest → n ∈ p.order ∧ n ≠ new := fun hn => by
    simpa [← hsplit] using hn
  have ha : a ∉ done := fun hdone =>
    (nodup_append.mp (hsplit ▸ hnodup.filter _)).2.2 a hdone a mem_cons_self rfl
  have hstay : (r.op new).isJoin = false := by
    rw [op_congr (hr.node_other new fun hdone => (hmem (mem_append_left _ hdone)).2 rfl)]
    exact hnew
  have hin' : a.index < r.arena.size := hr.size_eq.symm ▸ hin a (hmem (by simp)).1
  have hone := replaceInput_renamed hin' hstay hstep
  refine ⟨hone.order_eq.trans hr.order_eq, hone.size_eq.trans hr.size_eq, fun n hn => ?_,
    fun n hn => ?_⟩
  · by_cases hna : n = a
    · rw [hna, hone.node_eq a (mem_singleton_self a), hr.node_other a ha]
    · rw [hone.node_other n (by simpa using hna)]
      exact hr.node_eq n ((mem_append.mp hn).resolve_right (by simpa using hna))
  · rw [mem_append, mem_singleton, not_or] at hn
    rw [hone.node_other n (by simpa using hn.2), hr.node_other n hn.1]

end Plan

end QueryPlan
