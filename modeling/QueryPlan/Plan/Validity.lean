import QueryPlan.Explain.Node
import QueryPlan.Plan.Basic
/-!
# QueryPlan.Plan.Validity

**The check of a finished plan.** Nothing may read the root. What is reachable from the root
along inputs may hold no positional reference, and may refer only to columns of nodes that are
reachable as well.

`Plan.reachFrom` walks the plan with a list of nodes to visit. It takes a node of the arena
only once, and a handle from elsewhere has no inputs, so it ends on cyclic plans too.
-/

namespace QueryPlan

namespace Plan

/-- The number of nodes of the arena outside of a list. -/
def unseen (p : Plan) (seen : List NodeId) : Nat :=
  ((List.range p.arena.size).filter fun i => !seen.contains ⟨i⟩).length

theorem unseen_cons_le (p : Plan) (id : NodeId) (seen : List NodeId) :
    p.unseen (id :: seen) ≤ p.unseen seen := by
  unfold unseen
  rw [← List.countP_eq_length_filter, ← List.countP_eq_length_filter]
  apply List.countP_mono_left
  intro i _
  simp

theorem unseen_cons_lt (p : Plan) {id : NodeId} {seen : List NodeId}
    (hin : id.index < p.arena.size) (hnew : seen.contains id = false) :
    p.unseen (id :: seen) < p.unseen seen := by
  unfold unseen
  have hsub : (List.range p.arena.size).filter (fun i => !(id :: seen).contains ⟨i⟩) =
      ((List.range p.arena.size).filter fun i => !seen.contains ⟨i⟩).filter
        fun i => i != id.index := by
    rw [List.filter_filter]
    apply List.filter_congr
    intro i _
    cases id
    simp [bne, BEq.beq]
  rw [hsub]
  apply List.length_filter_lt_length_iff_exists.mpr
  refine ⟨id.index, ?_, by simp⟩
  rw [List.mem_filter]
  exact ⟨List.mem_range.mpr hin, by simpa using hnew⟩

/-- A handle from elsewhere has no inputs. -/
theorem inputs_of_size_le (p : Plan) {id : NodeId} (h : p.arena.size ≤ id.index) :
    p.inputs id = [] := by
  unfold inputs node
  rw [Array.getElem?_eq_none h]
  rfl

/-- The nodes seen so far and those that can be reached from a list of nodes to visit. -/
def reachFrom (p : Plan) (seen : List NodeId) : List NodeId → List NodeId
  | [] => seen
  | id :: rest =>
    if _hseen : seen.contains id then p.reachFrom seen rest
    else p.reachFrom (id :: seen) (p.inputs id ++ rest)
  termination_by todo => (p.unseen seen, todo.length)
  decreasing_by
    · exact Prod.Lex.right _ (Nat.lt_succ_self _)
    · by_cases hin : id.index < p.arena.size
      · exact Prod.Lex.left _ _ (p.unseen_cons_lt hin (by simpa using _hseen))
      · rw [inputs_of_size_le p (Nat.le_of_not_lt hin)]
        rcases Nat.lt_or_eq_of_le (p.unseen_cons_le id seen) with hlt | heq
        · exact Prod.Lex.left _ _ hlt
        · rw [heq]
          exact Prod.Lex.right _ (Nat.lt_succ_self _)

/-- The nodes that can be reached from a node along inputs. -/
def reachable (p : Plan) (id : NodeId) : List NodeId := p.reachFrom [] [id]

/-- Requires an expression of a node to be bound, to columns of the given nodes. -/
def checkExpr (p : Plan) (reachable : List NodeId) (id : NodeId) (e : Expr) : Result Unit := do
  Result.ensureQuoting (!e.hasPositional) do return .unboundInput (← (p.node id).text) (← e.text)
  e.columns.forM fun c =>
    Result.ensureQuoting (reachable.contains c.source) do
      return .unreachableSource (← (p.node id).text) c.source

/-- Requires a plan to be consistent. -/
def validate (p : Plan) : Result Unit :=
  match p.root? with
  | none => .ok ()
  | some root => do
    Result.ensureQuoting (p.useCount root == 0) do return .consumedRoot (← (p.node root).text)
    let reachable := p.reachable root
    reachable.forM fun id => (p.op id).exprs.forM (p.checkExpr reachable id)

end Plan

end QueryPlan
