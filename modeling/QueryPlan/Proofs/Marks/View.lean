import QueryPlan.Proofs.Scope.Bypass
/-!
# QueryPlan.Proofs.Marks.View

**What passes leave as it is.** Passes take out, put in and rewrite filters, sorts, joins and
projections that mark no rows. All other nodes are only made to read other columns. A `View` says
what is watched of them, and `Plan.Keeps` that an edit shows the same in the view: no node comes or
goes for it, and a reader keeps reading the node that it reads.

This speaks of the whole arena and needs no invariant of the plan, so it passes from edits to loops
and from loops to passes.
-/

namespace QueryPlan

open List

/-- Whether the operator is of a kind that passes take out, put in and rewrite. -/
def Operator.isPlain : Operator → Bool
  | filter _ | sort _ | join _ | leftDeepJoin _ => true
  | project j => j.target.isNone
  | _ => false

/-- What is watched of the nodes of a plan. -/
structure View (κ : Type) where
  see : NodeId → Operator → Option κ
  /-- The nodes that have to go on reading what they read. -/
  isReader : κ → Bool
  see_mapColumns : ∀ id op f, see id (op.mapExprs (Expr.mapColumns f)) = see id op
  see_mapPositions : ∀ id op f, see id (op.mapPositions f) = see id op
  see_plain : ∀ id op, op.isPlain = true → see id op = none
  see_default : ∀ id, see id default = none
  isReader_project : ∀ id j k, see id (.project j) = some k → isReader k = false

variable {κ : Type} {v : View κ}

theorem View.see_moved (v : View κ) (id : NodeId) (n : Node) (old new : NodeId)
    (mapping : Option ColumnMap) (columns : List ColumnRef) :
    v.see id (n.moved old new mapping columns).op = v.see id n.op := by
  unfold Node.moved Node.movedOp
  dsimp only
  split
  · rw [v.see_mapPositions, v.see_mapColumns]
  · exact v.see_mapColumns id n.op _

namespace Plan

variable {p q r : Plan} {id old new : NodeId} {mapping : Option ColumnMap}

/-- An edit shows the same in a view. Nodes that are new are not seen, and others do not become
live again. -/
structure Keeps (v : View κ) (p q : Plan) : Prop where
  size_le : p.arena.size ≤ q.arena.size
  live : ∀ n ∈ q.order, n.index < p.arena.size → n ∈ p.order
  see_eq : ∀ n, v.see n (q.op n) = v.see n (p.op n)
  inputs_eq : ∀ n k i, v.see n (p.op n) = some k → v.isReader k = true → p.inputs n = [i] →
    v.see i (p.op i) ≠ none → q.inputs n = [i]

namespace Keeps

theorem refl (v : View κ) (p : Plan) : Keeps v p p :=
  ⟨Nat.le_refl _, fun _ h _ => h, fun _ => rfl, fun _ _ _ _ _ h _ => h⟩

theorem trans (h : Keeps v p q) (h' : Keeps v q r) : Keeps v p r where
  size_le := Nat.le_trans h.size_le h'.size_le
  live n hn hin := h.live n (h'.live n hn (Nat.lt_of_lt_of_le hin h.size_le)) hin
  see_eq n := (h'.see_eq n).trans (h.see_eq n)
  inputs_eq n k i hsee hreader hinputs hi :=
    h'.inputs_eq n k i ((h.see_eq n).trans hsee) hreader (h.inputs_eq n k i hsee hreader hinputs hi)
      (by rwa [h.see_eq])

/-- Nodes leave the plan. -/
theorem of_order_subset (harena : q.arena = p.arena) (horder : q.order ⊆ p.order) :
    Keeps v p q := by
  have hnode : q.node = p.node := by
    funext n
    rw [node, node, harena]
  refine ⟨Nat.le_of_eq (by rw [harena]), fun n hn _ => horder hn, fun n => ?_, ?_⟩
  · rw [Plan.op, Plan.op, hnode]
  · intro n k i _ _ hinputs _
    rw [inputs, hnode]
    exact hinputs

theorem remove (p : Plan) (id : NodeId) : Keeps v p (p.remove id) :=
  of_order_subset rfl (filter_subset_self _)

/-- One node changes, and looks the same. -/
theorem modify {f : Node → Node} (hsee : v.see id (f (p.node id)).op = v.see id (p.op id))
    (hinputs : ∀ k i, v.see id (p.op id) = some k → v.isReader k = true → p.inputs id = [i] →
      v.see i (p.op i) ≠ none → (f (p.node id)).inputs = [i]) :
    Keeps v p (p.modify id f) := by
  by_cases hin : id.index < p.arena.size
  · refine ⟨Nat.le_of_eq (size_modify f).symm, fun n hn _ => hn, fun n => ?_, ?_⟩
    · by_cases hn : n = id
      · rw [hn, Plan.op, node_modify_self _ hin]
        exact hsee
      · rw [op_congr (node_modify_of_ne f hn)]
    · intro n k i hk hreader hread hi
      by_cases hn : n = id
      · subst hn
        rw [inputs, node_modify_self _ hin]
        exact hinputs k i hk hreader hread hi
      · rwa [inputs_congr (node_modify_of_ne f hn)]
  · rw [modify_of_size_le f (Nat.le_of_not_lt hin)]
    exact .refl v p

theorem setOp {op : Operator} (hsee : v.see id op = v.see id (p.op id)) :
    Keeps v p (p.setOp id op) :=
  .modify hsee fun _ _ _ _ hinputs _ => hinputs

/-- A node reads another one in place of one that is not watched. Others may read it in place of
any node if they are projections. -/
theorem replaceInput {node : NodeId} (h : p.replaceInput node old new mapping = .ok q)
    (hfree : old = new ∨ v.see old (p.op old) = none ∨ ∃ j, p.op node = .project j) :
    Keeps v p q := by
  obtain ⟨columns, -, -, -, rfl⟩ := replaceInput_eq_ok.mp h
  refine .modify (v.see_moved _ _ _ _ _ _) fun k i hk hreader hinputs hi => ?_
  -- A reader that is watched reads a node that is, so this is not the old one.
  have hkept : old.replaced new i = i := by
    rcases hfree with rfl | hfree | ⟨j, hj⟩
    · unfold NodeId.replaced
      split
      · next h => exact h.symm
      · rfl
    · exact NodeId.replaced_of_ne new fun heq => hi (heq ▸ hfree)
    · rw [hj] at hk
      rw [v.isReader_project _ j k hk] at hreader
      cases hreader
  have hread : (p.node node).inputs = [i] := hinputs
  rw [Node.inputs_moved, hread, map_singleton, hkept]

/-- A node is added that is not watched. -/
theorem insert {node : Node} (hsee : v.see p.nextId node.op = none)
    (harena : q.arena = p.arena.push node) (horder : ∀ n ∈ q.order, n = p.nextId ∨ n ∈ p.order) :
    Keeps v p q := by
  have hnode : q.node = (p.alloc node).node := by
    funext n
    rw [Plan.node, Plan.node, harena]
    rfl
  refine ⟨?_, fun n hn hin => (horder n hn).resolve_left (ne_nextId hin), fun n => ?_, ?_⟩
  · rw [harena, Array.size_push]
    exact Nat.le_succ _
  · by_cases hn : n = p.nextId
    · have hself : q.op n = node.op := by
        rw [hn, Plan.op, hnode, node_alloc_self]
      rw [hself, hn, hsee, Plan.op, node_nextId]
      exact (v.see_default _).symm
    · rw [Plan.op, hnode, node_alloc_of_ne _ hn]
      rfl
  · intro n k i _ _ hinputs _
    have hn : n ≠ p.nextId := by
      rintro rfl
      rw [inputs, node_nextId] at hinputs
      cases hinputs
    rw [inputs, hnode, node_alloc_of_ne _ hn]
    exact hinputs

/-! ### Loops -/

/-- What each step of a loop keeps, the loop keeps. -/
theorem foldlM {α : Type} {f : Plan → α → Result Plan} {as : List α} (hq : as.foldlM f p = .ok q)
    (step : ∀ r a r', Keeps v p r → f r a = .ok r' → Keeps v r r') : Keeps v p q :=
  Result.foldlM_keeps (motive := Keeps v p) hq (.refl v p)
    fun a _ r r' hr hstep => hr.trans (step r a r' hr hstep)

/-- What each step of a loop that takes ids keeps, the loop keeps. -/
theorem foldlM_fresh {α : Type} {f : Plan → α → Fresh Plan} {as : List α} {next next' : Nat}
    (hq : as.foldlM f p next = .ok (q, next'))
    (step : ∀ r a r' n n', Keeps v p r → f r a n = .ok (r', n') → Keeps v r r') : Keeps v p q :=
  Fresh.foldlM_keeps (motive := Keeps v p) hq (.refl v p)
    fun a _ r r' n n' hr hstep => hr.trans (step r a r' n n' hr hstep)

/-- Everything that reads a node reads another one in its place. -/
theorem replaceInputEverywhere (h : p.replaceInputEverywhere old new mapping = .ok q)
    (hold : v.see old (p.op old) = none) : Keeps v p q :=
  foldlM h fun r _ _ hr hstep => .replaceInput hstep (.inr (.inl (by rwa [hr.see_eq])))

theorem bypass (h : p.bypass id mapping = .ok q) (hid : v.see id (p.op id) = none) :
    Keeps v p q := by
  obtain ⟨input, r, -, hr, rfl⟩ := bypass_eq_ok h
  exact (replaceInputEverywhere hr hid).trans (.remove r id)

end Keeps

end Plan

end QueryPlan
