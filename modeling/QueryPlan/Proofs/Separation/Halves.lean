import QueryPlan.Proofs.LiveOrder.Insertion
import QueryPlan.Proofs.Plan.Renaming
/-!
# QueryPlan.Proofs.Separation.Halves

**One projection taken apart.** The lower half stays in the place of the projection, the upper half
follows right behind it, and every other node is renamed (`Plan.Halved`). It happens exactly if a
window function lies inside of an expression of the projection (`Ordered.separateWindow`).
-/

namespace QueryPlan

open List

namespace Plan

variable {p q : Plan} {id : NodeId} {j : Project} {next next' : Nat}

/-- A projection gave way to two. Everything else reads the upper one. -/
structure Halved (p q : Plan) (id : NodeId) (j : Project) : Prop where
  op_before : p.op id = .project j
  order_eq : ∃ pre post, p.order = pre ++ id :: post ∧ q.order = pre ++ id :: p.nextId :: post
  size_eq : q.arena.size = p.arena.size + 1
  node_lower : q.node id =
    Node.renamed (id.replaced p.nextId) { p.node id with op := .project (p.lowerHalf id j) }
  node_upper : ∃ buildId, q.node p.nextId =
    .make buildId [id] (.project (.plain (splitUpper id j.exprs).1 j.fields))
  node_other : ∀ x ∈ p.order, x ≠ id → q.node x = (p.node x).renamed (id.replaced p.nextId)

theorem Ordered.separateWindow (h : p.Ordered p.order) (hid : id ∈ p.order)
    (hq : p.separateWindow id next = .ok (q, next')) :
    (p.embedsWindow id = false ∧ q = p) ∨
      (p.embedsWindow id = true ∧ ∃ j, p.Halved q id j) := by
  refine (separateWindow_eq_ok hq).imp_right fun ⟨hembeds, j, buildId, r, hop, hr, hq⟩ =>
    ⟨hembeds, j, ?_⟩
  generalize hp₀ : p.setOp id (.project (p.lowerHalf id j)) = p₀ at hr
  have hset : p₀.Ordered p₀.order := hp₀ ▸ h.setOp id _
  have hnext : p₀.nextId = p.nextId := by rw [← hp₀, nextId, size_setOp]; rfl
  have hlive : p₀.order = p.order := by rw [← hp₀, order_setOp]
  obtain ⟨pre, post, horder, rfl⟩ := insertAfter_eq_ok hr
  rw [hnext] at hq
  rw [append_cons] at horder
  have hnew := hset.insert_live horder (n := .make buildId [id]
    (.project (.plain (splitUpper id j.exprs).1 j.fields))) (by simp [Node.make])
  rw [hnext, append_assoc, singleton_append] at hnew
  have hred := replaceInputEverywhere_renamed hq hnew.nodup hnew.inArena (by
    rw [← hnext]
    exact congrArg (fun m => m.op.isJoin) (node_alloc_self _))
  have hmem : ∀ x ∈ p.order, x ∈ (pre ++ id :: p.nextId :: post).filter fun n => n != p.nextId := by
    intro x hx
    rw [mem_filter, append_cons, mem_middle_iff, ← horder, hlive]
    exact ⟨.inr hx, by simpa using ne_nextId (h.inArena x hx)⟩
  have hnode : ∀ x ∈ p.order, q.node x = (p₀.node x).renamed (id.replaced p.nextId) := by
    intro x hx
    rw [hred.node_eq x (hmem x hx)]
    exact congrArg (Node.renamed _) (node_alloc_of_ne _ (hnext ▸ ne_nextId (h.inArena x hx)))
  refine ⟨hop, ⟨pre, post, ?_, hred.order_eq⟩, ?_, ?_, ⟨buildId, ?_⟩, fun x hx hxid => ?_⟩
  · rw [← hlive, horder, append_assoc, singleton_append]
  · rw [hred.size_eq, ← hp₀]
    simp
  · rw [hnode id hid, ← hp₀, Plan.setOp, node_modify_self _ (h.inArena id hid)]
  · rw [hred.node_other _ (by simp), ← hnext]
    exact node_alloc_self _
  · rw [hnode x hx, ← hp₀, node_setOp_of_ne _ hxid]

/-- The lower half reads what the projection reads. -/
theorem Halved.node_lower_eq (hhalved : Halved p q id j) (hself : id ∉ p.inputs id)
    (hbound : ∀ e ∈ j.exprs, e.hasPositional = false)
    (hsource : ∀ e ∈ j.exprs, ∀ c ∈ e.columns, c.source ≠ id) :
    q.node id = { p.node id with op := .project (p.lowerHalf id j) } := by
  obtain ⟨-, hcolumns⟩ := columns_lowerHalf (p := p) hbound hsource
  rw [hhalved.node_lower]
  refine Node.renamed_eq_self (fun i hi => NodeId.replaced_of_ne _ ?_)
    fun c hc => NodeId.replaced_of_ne _ ?_
  · rintro rfl
    exact hself hi
  · obtain ⟨e, he, hc⟩ := Operator.mem_columns.mp (hcolumns hc)
    exact hsource e he c hc

/-- A renamed projection has its window functions where they were. -/
theorem embedsWindow_of_renamed {σ : NodeId → NodeId} (h : q.node id = (p.node id).renamed σ) :
    q.embedsWindow id = p.embedsWindow id := by
  unfold embedsWindow
  rw [show q.op id = (p.op id).mapExprs _ from congrArg Node.op h]
  cases p.op id with
  | project j =>
      change (j.exprs.map _).any Expr.embedsWindow = _
      rw [any_map]
      exact congrArg _ (funext (Expr.embedsWindow_mapColumns _))
  | _ => rfl

end Plan

end QueryPlan
