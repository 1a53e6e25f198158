import QueryPlan.Proofs.Scope.Binding
/-!
# QueryPlan.Proofs.Scope.Positions

**Binding is exact.** A plan that is read can be bound if and only if every position lies in the
output that its node is bound against (`Plan.PositionsInRange`). What binding then gives is an
explicit function of the plan: the column at each position in its place, and everything else as it
was read (`Plan.resolved`). Nothing is left to bind in a well-formed plan
(`Plan.WellFormed.bind_eq_self`).

Binding goes on behind the first position that it cannot place, for the sake of its report. So
every step is described by what it gives if no position was reported before, and by the report
that it passes on (`Reports`).
-/

namespace QueryPlan

open List

/-! ### Steps that report a position -/

/-- A step of binding that gives `a` if a condition holds, and reports a position if not. A report
stays as it is. -/
structure Reports {α : Type} (m : StateM (Option Nat) α) (condition : Prop) (a : α) : Prop where
  done : condition → m.run none = (a, none)
  refused : ¬ condition → (m.run none).2 ≠ none
  kept : ∀ i, (m.run (some i)).2 = some i

namespace Reports

variable {α β : Type} {m : StateM (Option Nat) α} {condition other : Prop} {a : α}

theorem congr (h : Reports m condition a) (heq : other ↔ condition) : Reports m other a where
  done hother := h.done (heq.mp hother)
  refused hother := h.refused fun hcondition => hother (heq.mpr hcondition)
  kept := h.kept

theorem pure (a : α) (h : condition) : Reports (pure a : StateM (Option Nat) α) condition a :=
  ⟨fun _ => rfl, fun hnot => absurd h hnot, fun _ => rfl⟩

/-- What is done with the outcome of a step changes no report. -/
theorem map (f : α → β) (h : Reports m condition a) :
    Reports (do return f (← m)) condition (f a) where
  done hcondition := by
    change (f (m.run none).1, (m.run none).2) = _
    rw [h.done hcondition]
  refused := h.refused
  kept := h.kept

/-- A list of steps gives the list of their outcomes if the condition of each of them holds. -/
theorem mapM {f : Expr → StateM (Option Nat) β} {conditions : Expr → Prop} {g : Expr → β}
    {es : List Expr} (h : ∀ e ∈ es, Reports (f e) (conditions e) (g e)) :
    Reports (es.mapM f) (∀ e ∈ es, conditions e) (es.map g) := by
  induction es with
  | nil => exact .pure [] (by simp)
  | cons e es ih =>
      have hrun : ∀ s, ((e :: es).mapM f).run s =
          (((f e).run s).1 :: ((es.mapM f).run ((f e).run s).2).1,
            ((es.mapM f).run ((f e).run s).2).2) := fun s => by
        rw [List.mapM_cons]
        rfl
      obtain ⟨he, hes⟩ := forall_mem_cons.mp h
      have ih := ih hes
      constructor
      · intro hall
        obtain ⟨hhead, htail⟩ := forall_mem_cons.mp hall
        rw [hrun, he.done hhead, ih.done htail]
        rfl
      · intro hnot
        rw [hrun]
        by_cases hhead : conditions e
        · rw [he.done hhead]
          exact ih.refused fun htail => hnot (forall_mem_cons.mpr ⟨hhead, htail⟩)
        · -- The head reports a position, and the rest of the list passes it on.
          obtain ⟨i, hi⟩ := Option.ne_none_iff_exists'.mp (he.refused hhead)
          rw [hi, ih.kept i]
          exact Option.some_ne_none i
      · intro i
        rw [hrun, he.kept i, ih.kept i]

end Reports

/-! ### Expressions -/

/-- What stands for a leaf if positions name the columns of an output. -/
def Leaf.resolve (output : List ColumnRef) : Leaf → Expr
  | .positional k =>
    match output[k]? with
    | some c => .column c
    | none => .positional k
  | l => .leaf l

namespace Expr

variable {output : List ColumnRef} {width : Nat} {e : Expr}

/-- Every position in an expression is below a width. -/
def InRange (width : Nat) (e : Expr) : Prop := ∀ k, .positional k ∈ e.leaves → k < width

/-- The expression with the columns of an output in place of its positions. -/
def resolve (output : List ColumnRef) : Expr → Expr := mapLeaves (Leaf.resolve output)

theorem inRange_app {head : Head} {args : List Expr} :
    (app head args).InRange width ↔ ∀ e ∈ args, e.InRange width := by
  simp only [InRange, leaves_app, mem_flatMap]
  constructor
  · exact fun h e he k hk => h k ⟨e, he, hk⟩
  · exact fun h k ⟨e, he, hk⟩ => h e he k hk

theorem inRange_of_hasPositional (h : e.hasPositional = false) : e.InRange width := fun _ hk =>
  nomatch hasPositional_eq_false_iff.mp h _ hk

/-- An expression without positions has nothing to resolve. -/
theorem resolve_of_hasPositional (h : e.hasPositional = false) : e.resolve output = e := by
  induction e using ind with
  | leaf l =>
      cases l with
      | positional k => cases h
      | _ => rfl
  | app head args ih =>
      rw [hasPositional_app, any_eq_false] at h
      rw [resolve, mapLeaves_app]
      refine congrArg (app head) ?_
      exact (map_congr_left fun e he => ih e he (by simpa using h e he)).trans (map_id _)

/-- Binding an expression resolves it if all its positions are in range. -/
theorem bindM_reports (output : List ColumnRef) (e : Expr) :
    Reports (e.bindM output) (e.InRange output.length) (e.resolve output) := by
  rw [bindM_eq]
  induction e using ind with
  | leaf l =>
      change Reports (bindLeaf output l) ((leaf l).InRange output.length) (Leaf.resolve output l)
      cases l with
      | positional k =>
          have hrange : (positional k).InRange output.length ↔ k < output.length := by
            simp [InRange, leaves]
          refine Reports.congr ?_ hrange
          refine ⟨fun hlt => ?_, fun hlt => ?_, fun i => rfl⟩
          · have hget := getElem?_eq_getElem hlt
            change bindLeaf output (.positional k) none = _
            simp only [bindLeaf, Leaf.resolve, hget]
          · have hget := getElem?_eq_none (Nat.le_of_not_lt hlt)
            change (bindLeaf output (.positional k) none).2 ≠ none
            simp [bindLeaf, hget]
      | _ => exact .pure _ (inRange_of_hasPositional rfl)
  | app head args ih =>
      rw [mapLeavesM_app, resolve, mapLeaves_app]
      exact ((Reports.mapM ih).map (app head)).congr inRange_app

end Expr

/-! ### Operators -/

namespace Operator

variable {output : List ColumnRef} {op : Operator}

/-- The operator with the columns of an output in place of its positions. -/
def resolve (output : List ColumnRef) (op : Operator) : Operator :=
  op.mapExprs (Expr.resolve output)

/-- Binding an operator as it is read resolves it if all its positions are in range. -/
theorem Unbound.bindM_reports (h : op.Unbound) (output : List ColumnRef) :
    Reports (op.bindM output) (∀ e ∈ op.exprs, e.InRange output.length) (op.resolve output) := by
  have hlist : ∀ es : List Expr, Reports (es.mapM (Expr.bindM output))
      (∀ e ∈ es, e.InRange output.length) (es.map (Expr.resolve output)) := fun es =>
    Reports.mapM fun e _ => Expr.bindM_reports output e
  cases op with
  | filter f =>
      refine ((Expr.bindM_reports output f.condition).map fun e =>
        filter { f with condition := e }).congr ?_
      simp [exprs]
  | join j =>
      refine ((Expr.bindM_reports output j.condition).map fun e =>
        join { j with condition := e }).congr ?_
      simp [exprs]
  | project j => exact (hlist j.exprs).map fun es => project { j with exprs := es }
  | tableFunction t =>
      have hresults := h.results t rfl
      have hkept : t.results.map (Expr.resolve output) = t.results :=
        (map_congr_left fun e he => Expr.resolve_of_hasPositional (hresults e he)).trans (map_id _)
      have hargs := (hlist t.args).map fun es => tableFunction { t with args := es }
      rw [resolve, mapExprs, hkept]
      refine hargs.congr ?_
      rw [exprs, forall_mem_append]
      exact and_iff_left fun e he => Expr.inRange_of_hasPositional (hresults e he)
  | compound c => exact absurd rfl (h.unfused c default).1
  | leftDeepJoin j => exact absurd rfl (h.unfused default j).2
  | _ => exact .pure _ fun e he => absurd he not_mem_nil

/-- Binding gives an operator without positions as it is. -/
theorem bindM_eq_self (h : ∀ e ∈ op.exprs, e.hasPositional = false) :
    (op.bindM output).run none = (op, none) := by
  have hone : ∀ e : Expr, e.hasPositional = false → (e.bindM output).run none = (e, none) := by
    intro e he
    rw [(Expr.bindM_reports output e).done (Expr.inRange_of_hasPositional he),
      Expr.resolve_of_hasPositional he]
  have hlist : ∀ es : List Expr, (∀ e ∈ es, e.hasPositional = false) →
      (es.mapM (Expr.bindM output)).run none = (es, none) := by
    intro es hes
    rw [(Reports.mapM fun e _ => Expr.bindM_reports output e).done fun e he =>
      Expr.inRange_of_hasPositional (hes e he)]
    exact congrArg (·, none)
      ((map_congr_left fun e he => Expr.resolve_of_hasPositional (hes e he)).trans (map_id _))
  cases op with
  | filter f =>
      have hcondition := hone f.condition (h _ (mem_singleton_self _))
      exact congrArg (fun r : Expr × Option Nat => (filter { f with condition := r.1 }, r.2))
        hcondition
  | join j =>
      have hcondition := hone j.condition (h _ (mem_singleton_self _))
      exact congrArg (fun r : Expr × Option Nat => (join { j with condition := r.1 }, r.2))
        hcondition
  | project j =>
      exact congrArg (fun r : List Expr × Option Nat => (project { j with exprs := r.1 }, r.2))
        (hlist j.exprs h)
  | tableFunction t =>
      have hargs := hlist t.args fun e he => h e (mem_append_left _ he)
      exact congrArg (fun r : List Expr × Option Nat => (tableFunction { t with args := r.1 }, r.2))
        hargs
  | _ => rfl

end Operator

/-! ### Nodes and plans -/

namespace Plan

variable {p q s t : Plan} {id : NodeId}

/-- The node whose columns the positions of a node name: the node itself if it joins, else its only
input. -/
def bindingSource (p : Plan) (id : NodeId) : Result NodeId :=
  match p.op id with
  | .join _ => .ok id
  | _ => (p.node id).singleInput

/-- The columns that the positions of a node name. -/
def namedColumns (p : Plan) (id : NodeId) : List ColumnRef :=
  Result.valueOr [] (do p.output (← p.bindingSource id))

/-- Every position in the expressions of a live node is below the width of the node whose columns
it names. -/
def PositionsInRange (p : Plan) : Prop :=
  ∀ id ∈ p.order, ∀ e ∈ (p.op id).exprs, ∀ k, .positional k ∈ e.leaves →
    ∃ source width, p.bindingSource id = .ok source ∧ p.width source = .ok width ∧ k < width

/-- A node with the columns that its positions name in place of them. -/
def resolvedNode (p : Plan) (id : NodeId) : Node :=
  { p.node id with op := (p.op id).resolve (p.namedColumns id) }

/-- The plan with the positions of its live nodes resolved, and nothing else changed. -/
def resolved (p : Plan) : Plan :=
  { p with arena := p.arena.mapIdx fun i n => if p.isLive ⟨i⟩ then p.resolvedNode ⟨i⟩ else n }

/-- Two plans with the same nodes and the same order are one. -/
theorem eq_of_nodes (horder : q.order = p.order) (hsize : q.arena.size = p.arena.size)
    (hnode : ∀ id, q.node id = p.node id) : q = p := by
  have harena : q.arena = p.arena := by
    refine Array.ext hsize fun i hq hp => ?_
    have h := hnode ⟨i⟩
    simp only [node, getElem?_pos, hq, hp, Option.getD_some] at h
    exact h
  cases p
  cases q
  cases horder
  cases harena
  rfl

theorem node_setOp (hid : id.index < p.arena.size) (op : Operator) (x : NodeId) :
    (p.setOp id op).node x = if x = id then { p.node id with op := op } else p.node x := by
  split
  · next h => rw [h, setOp, node_modify_self _ hid]
  · next h => exact node_setOp_of_ne op h

/-- The operator that a node has anyway changes nothing. -/
theorem setOp_op_self (hid : id.index < p.arena.size) : p.setOp id (p.op id) = p := by
  refine eq_of_nodes rfl (by simp) fun x => ?_
  rw [node_setOp hid]
  split
  · next h => rw [h]; rfl
  · rfl

theorem node_resolved (hlive : ∀ id ∈ p.order, id.index < p.arena.size) (id : NodeId) :
    p.resolved.node id = if id ∈ p.order then p.resolvedNode id else p.node id := by
  by_cases hid : id.index < p.arena.size
  · have hget : p.resolved.node id =
        if p.isLive id then p.resolvedNode id else p.arena[id.index] := by
      simp [node, resolved, hid]
    rw [hget]
    simp only [isLive, contains_iff_mem, node, hid, getElem?_pos, Option.getD_some]
  · rw [if_neg fun hmem => hid (hlive id hmem)]
    simp [node, resolved, hid]

/-- A node with expressions is bound against the columns that it can see, and all other nodes are
not bound. -/
theorem Arranged.bindingOutput_ok {l : List NodeId} (h : p.Arranged l) (hid : id ∈ l) :
    ∃ o, p.bindingOutput id = .ok o ∧ ∀ output, o = some output →
      output = p.columnsOf (p.reads id) := by
  suffices ∃ o, p.bindingOutput id = .ok o by
    obtain ⟨o, ho⟩ := this
    exact ⟨o, ho, fun output hsome => bindingOutput_eq_some h hid (hsome ▸ ho)⟩
  have hunary : (p.op id).arity = .exactly 1 →
      ∃ o, ((p.node id).singleInput >>= fun i => p.output i >>= fun o => .ok (some o)) = .ok o := by
    intro harity
    obtain ⟨i, hi⟩ := Arity.exactly_one_admits (harity ▸ h.arity id hid)
    have hil : i ∈ l := h.mem_of_input hid (hi ▸ mem_singleton_self i)
    rw [Result.bind_ok (Node.singleInput_eq_ok.mpr hi), Result.bind_ok (h.output_eq hil)]
    exact ⟨_, rfl⟩
  unfold bindingOutput
  split
  · next hop => exact hunary (by rw [hop]; rfl)
  · next hop => exact hunary (by rw [hop]; rfl)
  · next hop => exact hunary (by rw [hop]; rfl)
  · rw [Result.bind_ok (h.output_eq hid)]
    exact ⟨_, rfl⟩
  · exact ⟨none, rfl⟩

/-- The positions of a node with expressions name the columns that it can see. -/
theorem Arranged.bindingSource_ok {l : List NodeId} (h : p.Arranged l) (hid : id ∈ l)
    (hop : (p.op id).Unbound) (hexprs : (p.op id).exprs ≠ []) :
    ∃ source, p.bindingSource id = .ok source ∧ source ∈ l ∧
      p.exposed source = p.reads id := by
  have hunary : (p.op id).arity = .exactly 1 → (p.op id).isJoin = false →
      ∃ source, (p.node id).singleInput = .ok source ∧ source ∈ l ∧
        p.exposed source = p.reads id := by
    intro harity hjoin
    obtain ⟨i, hi⟩ := Arity.exactly_one_admits (harity ▸ h.arity id hid)
    refine ⟨i, Node.singleInput_eq_ok.mpr hi, h.mem_of_input hid (hi ▸ mem_singleton_self i), ?_⟩
    rw [reads_of_input hjoin hi]
  unfold bindingSource
  cases hcase : p.op id with
  | join j =>
      have hjoin : (p.op id).isJoin = true := by rw [hcase]; rfl
      exact ⟨id, rfl, hid, by rw [exposed_of_join hjoin, reads_of_join hjoin]⟩
  | filter | project | tableFunction => exact hunary (by rw [hcase]; rfl) (by rw [hcase]; rfl)
  | compound c => exact absurd hcase (hop.unfused c default).1
  | leftDeepJoin j => exact absurd hcase (hop.unfused default j).2
  | _ => exact absurd (by rw [hcase]; rfl) hexprs

/-- Where a node has expressions, its positions name the columns that it can see. -/
theorem Arranged.namedColumns_eq {l : List NodeId} (h : p.Arranged l) (hid : id ∈ l)
    (hop : (p.op id).Unbound) (hexprs : (p.op id).exprs ≠ []) :
    p.namedColumns id = p.columnsOf (p.reads id) := by
  obtain ⟨source, hsource, hlive, hexposed⟩ := h.bindingSource_ok hid hop hexprs
  rw [namedColumns, Result.bind_ok hsource, h.output_eq hlive, hexposed]
  rfl

/-- Resolving a node needs no more than the columns that it can see. -/
theorem Arranged.resolve_namedColumns {l : List NodeId} (h : p.Arranged l) (hid : id ∈ l)
    (hop : (p.op id).Unbound) :
    (p.op id).resolve (p.namedColumns id) = (p.op id).resolve (p.columnsOf (p.reads id)) := by
  by_cases hexprs : (p.op id).exprs = []
  · exact Operator.mapExprs_congr fun e he => absurd (hexprs ▸ he) not_mem_nil
  · rw [h.namedColumns_eq hid hop hexprs]

/-- Positions are in range if they lie below the number of columns that their node can see. -/
theorem Unbound.positionsInRange_iff (h : p.Unbound) : p.PositionsInRange ↔
    ∀ id ∈ p.order, ∀ e ∈ (p.op id).exprs, e.InRange (p.columnsOf (p.reads id)).length := by
  refine forall₄_congr fun id hid e he => forall₂_congr fun k _ => ?_
  obtain ⟨source, hsource, hlive, hexposed⟩ :=
    h.arranged.bindingSource_ok hid (h.unbound id hid) (ne_nil_of_mem he)
  have hlength : (p.columnsOf (p.reads id)).length = p.columnCount source := by
    rw [length_columnsOf, ← hexposed, h.arranged.columnCount_eq_sum_exposed hlive]
  rw [hlength, hsource]
  constructor
  · rintro ⟨_, width, ⟨⟩, hwidth, hk⟩
    rw [h.arranged.width_eq hlive] at hwidth
    exact Except.ok.inj hwidth ▸ hk
  · exact fun hk => ⟨source, _, rfl, h.arranged.width_eq hlive, hk⟩

/-- Binding a node resolves it if its positions are in range, and fails if not. -/
theorem Arranged.bindNode_eq_ok {l : List NodeId} (h : p.Arranged l) (hid : id ∈ l)
    (hop : (p.op id).Unbound) : p.bindNode id = .ok q ↔
      (∀ e ∈ (p.op id).exprs, e.InRange (p.columnsOf (p.reads id)).length) ∧
        q = p.setOp id ((p.op id).resolve (p.columnsOf (p.reads id))) := by
  obtain ⟨o, ho, houtput⟩ := h.bindingOutput_ok hid
  rw [bindNode_eq_ok_iff, ho]
  cases o with
  | none =>
      have hexprs := exprs_of_bindingOutput hop ho
      have hsame : (p.op id).resolve (p.columnsOf (p.reads id)) = p.op id :=
        (Operator.mapExprs_congr fun e he => absurd (hexprs ▸ he) not_mem_nil).trans
          (Operator.mapExprs_id _)
      rw [hsame, setOp_op_self (h.inArena id hid), hexprs]
      simp
  | some output =>
      obtain rfl := houtput output rfl
      have hreports := hop.bindM_reports (p.columnsOf (p.reads id))
      constructor
      · rintro (⟨hnone, -⟩ | ⟨output, op, hsome, hrun, rfl⟩)
        · cases hnone
        · obtain rfl := Option.some.inj (Except.ok.inj hsome)
          have hrange : ∀ e ∈ (p.op id).exprs, e.InRange (p.columnsOf (p.reads id)).length := by
            by_contra hnot
            exact hreports.refused hnot (by rw [hrun])
          have hresolved := (hreports.done hrange).symm.trans hrun
          exact ⟨hrange, by rw [(Prod.mk.inj hresolved).1]⟩
      · rintro ⟨hrange, rfl⟩
        exact .inr ⟨_, _, rfl, hreports.done hrange, rfl⟩

/-- Binding is under way: what is done is resolved, and the rest is as it was read. -/
structure ResolvedUpTo (p : Plan) (done : List NodeId) (s : Plan) : Prop where
  order_eq : s.order = p.order
  size_eq : s.arena.size = p.arena.size
  node_eq : ∀ id, s.node id = if id ∈ done then p.resolvedNode id else p.node id

namespace ResolvedUpTo

variable {done : List NodeId}

theorem nil (p : Plan) : ResolvedUpTo p [] p := ⟨rfl, rfl, fun _ => by simp⟩

theorem sameShape (h : ResolvedUpTo p done s) : SameShape p s where
  size_eq := h.size_eq
  inputs_eq id := by
    rw [inputs, inputs, h.node_eq]
    split <;> rfl
  layout_eq id := by
    rw [op, op, h.node_eq]
    split
    · exact Operator.layout_mapExprs _ _
    · rfl
  arity_eq id := by
    rw [op, op, h.node_eq]
    split
    · exact Operator.arity_mapExprs _ _
    · rfl

/-- The next node is bound if its positions are in range, and then it is resolved. -/
theorem bindNode_eq_ok (h : ResolvedUpTo p done s) (hp : p.Unbound) (hid : id ∈ p.order)
    (hdone : id ∉ done) : s.bindNode id = .ok t ↔
      (∀ e ∈ (p.op id).exprs, e.InRange (p.columnsOf (p.reads id)).length) ∧
        t = s.setOp id (p.resolvedNode id).op := by
  have hsame : s.op id = p.op id := op_congr (by rw [h.node_eq, if_neg hdone])
  have harranged := hp.arranged.of_sameShape h.sameShape
  rw [harranged.bindNode_eq_ok hid (hsame ▸ hp.unbound id hid), h.sameShape.columnsOf_eq,
    h.sameShape.reads_eq, hsame, resolvedNode,
    hp.arranged.resolve_namedColumns hid (hp.unbound id hid)]

theorem setOp (h : ResolvedUpTo p done s) (hid : id.index < p.arena.size) (hdone : id ∉ done) :
    ResolvedUpTo p (done ++ [id]) (s.setOp id (p.resolvedNode id).op) where
  order_eq := h.order_eq
  size_eq := (size_setOp _).trans h.size_eq
  node_eq x := by
    rw [node_setOp (h.size_eq ▸ hid)]
    by_cases hx : x = id
    · rw [if_pos hx, if_pos (by simp [hx]), h.node_eq, if_neg hdone, hx]
      rfl
    · rw [if_neg hx, h.node_eq]
      simp [hx]

/-- In a resolved plan all live nodes are done. -/
theorem resolved (h : p.Unbound) : ResolvedUpTo p p.order p.resolved :=
  ⟨rfl, by simp [Plan.resolved], node_resolved h.arranged.inArena⟩

/-- When all live nodes are done, the plan is resolved. -/
theorem eq_resolved (h : ResolvedUpTo p p.order s) (hp : p.Unbound) : s = p.resolved := by
  have hall := ResolvedUpTo.resolved hp
  refine eq_of_nodes (h.order_eq.trans hall.order_eq.symm) (h.size_eq.trans hall.size_eq.symm) ?_
  intro id
  rw [h.node_eq, hall.node_eq]

end ResolvedUpTo

/-- A plan as it is read can be bound if its positions are in range, and then it is resolved. -/
theorem Unbound.bind_eq_ok (h : p.Unbound) :
    p.bind = .ok q ↔ p.PositionsInRange ∧ q = p.resolved := by
  rw [h.positionsInRange_iff]
  have hfresh : ∀ pre id post, p.order = pre ++ id :: post → id ∉ pre := by
    intro pre id post hsplit hmem
    have hnodup := h.arranged.nodup
    rw [hsplit] at hnodup
    exact (nodup_append.mp hnodup).2.2 id hmem id mem_cons_self rfl
  constructor
  · intro hq
    have hdone := Result.foldlM_induct (motive := fun done s => ResolvedUpTo p done s ∧
        ∀ id ∈ done, ∀ e ∈ (p.op id).exprs, e.InRange (p.columnsOf (p.reads id)).length) hq
      ⟨.nil p, nofun⟩ fun pre id post s t hsplit hs ht => by
        have hid : id ∈ p.order := by simp [hsplit]
        have hpre := hfresh pre id post hsplit
        obtain ⟨hrange, rfl⟩ := (hs.1.bindNode_eq_ok h hid hpre).mp ht
        refine ⟨hs.1.setOp (h.arranged.inArena id hid) hpre, fun x hx => ?_⟩
        rcases mem_append.mp hx with hx | hx
        · exact hs.2 x hx
        · exact mem_singleton.mp hx ▸ hrange
    exact ⟨hdone.2, hdone.1.eq_resolved h⟩
  · rintro ⟨hrange, rfl⟩
    have hstep : ∀ pre id post s, p.order = pre ++ id :: post → ResolvedUpTo p pre s →
        ∃ t, s.bindNode id = .ok t ∧ ResolvedUpTo p (pre ++ [id]) t := by
      intro pre id post s hsplit hs
      have hid : id ∈ p.order := by simp [hsplit]
      have hpre := hfresh pre id post hsplit
      exact ⟨_, (hs.bindNode_eq_ok h hid hpre).mpr ⟨hrange id hid, rfl⟩,
        hs.setOp (h.arranged.inArena id hid) hpre⟩
    obtain ⟨t, ht, hdone⟩ := Result.foldlM_ok (ResolvedUpTo.nil p) hstep
    rw [bind, ht, hdone.eq_resolved h]

/-- Nothing is left to bind in a well-formed plan. -/
theorem WellFormed.bind_eq_self (h : p.WellFormed) : p.bind = .ok p := by
  have hstep : ∀ pre id post s, p.order = pre ++ id :: post → s = p →
      ∃ t, s.bindNode id = .ok t ∧ t = p := by
    intro pre id post s hsplit hs
    have hid : id ∈ p.order := by simp [hsplit]
    obtain ⟨o, ho, -⟩ := h.arranged.bindingOutput_ok hid
    refine ⟨p, ?_, rfl⟩
    rw [hs, bindNode_eq_ok_iff]
    cases o with
    | none => exact .inl ⟨ho, rfl⟩
    | some output =>
        exact .inr ⟨output, _, ho, Operator.bindM_eq_self (h.bound id hid),
          (setOp_op_self (h.inArena hid)).symm⟩
  obtain ⟨t, ht, rfl⟩ := Result.foldlM_ok (motive := fun _ s => s = p) rfl hstep
  exact ht

/-- The positions of a join name the columns of its left input, then those of its right input. -/
theorem Arranged.namedColumns_join {l : List NodeId} (h : p.Arranged l) (hid : id ∈ l) {j : Join}
    (hop : p.op id = .join j) : ∃ left right width, p.inputs id = [left, right] ∧
      p.width left = .ok width ∧ ∀ k c, (p.namedColumns id)[k]? = some c →
        c = if k < width then ⟨left, k⟩ else ⟨right, k - width⟩ := by
  obtain ⟨left, right, hinputs⟩ := h.sides_of_join hid hop
  have hleft : left ∈ l := h.mem_of_input hid (by simp [hinputs])
  refine ⟨left, right, p.columnCount left, hinputs, h.width_eq hleft, fun k c hk => ?_⟩
  have hnamed : p.namedColumns id = p.columnsOf [left, right] := by
    have hsource : p.bindingSource id = .ok id := by
      unfold bindingSource
      rw [hop]
    have hjoin : (p.op id).isJoin = true := by rw [hop]; rfl
    rw [namedColumns, Result.bind_ok hsource, h.output_eq hid, exposed_of_join hjoin, hinputs]
    rfl
  rw [hnamed, columnsOf_cons] at hk
  split
  · next hlt =>
    rw [getElem?_append_left (by simpa using hlt)] at hk
    exact (ColumnRef.getElem?_range.mp hk).2
  · next hge =>
    rw [getElem?_append_right (by simpa using hge), ColumnRef.length_range, columnsOf_cons,
      columnsOf, flatMap_nil, append_nil] at hk
    exact (ColumnRef.getElem?_range.mp hk).2

/-- **Exact binding.** A plan that is read is bound if and only if all its positions are in range,
and binding does nothing but resolve them: no position is left, a second binding changes nothing,
and the plans of subqueries stay what they were when the plan was read. -/
theorem bind_exact {env : Environment} {nested : Expr.PlanBuilder} {j : Json}
    {start next : BuildState} {p : Plan}
    (h : ofDocument env (Expr.ofDocument nested) j start = .ok (p, next)) :
    (∀ q, p.bind = .ok q ↔ p.PositionsInRange ∧ q = p.resolved) ∧
    (p.PositionsInRange → p.resolved.bind = .ok p.resolved ∧
      ∀ id ∈ p.resolved.order, ∀ e ∈ (p.resolved.op id).exprs, e.hasPositional = false) ∧
    (∀ id ∈ p.order, ∀ join, p.op id = .join join → ∃ left right width,
      p.inputs id = [left, right] ∧ p.width left = .ok width ∧
        ∀ k c, (p.namedColumns id)[k]? = some c →
          c = if k < width then ⟨left, k⟩ else ⟨right, k - width⟩) ∧
    ∀ document, document.field "rels" = .ok j → p.order ≠ [] →
      boundOfDocument env nested document start = do return (← p.bind, next) := by
  have hp : p.Unbound := ofDocument_unbound (Expr.ofDocument_columns nested) j _ _ _ h
  refine ⟨fun q => hp.bind_eq_ok, fun hrange => ?_, fun id hid join hop => ?_,
    fun document hfield hne => ?_⟩
  · have hwf := (hp.bind_wellFormed (hp.bind_eq_ok.mpr ⟨hrange, rfl⟩)).1
    exact ⟨hwf.bind_eq_self, hwf.bound⟩
  · exact hp.arranged.namedColumns_join hid hop
  · have hnodes : Result.ensure (!p.order.isEmpty) .emptyPlan = .ok () :=
      Result.ensure_eq_ok.mpr (by simpa using hne)
    unfold boundOfDocument
    rw [Build.bind_ok (Build.lift_eq_ok.mpr ⟨hfield, rfl⟩), Build.bind_ok h,
      Build.bind_ok (Build.lift_eq_ok.mpr ⟨hnodes, rfl⟩)]
    rfl

/-- A filter over a join on `CASE`, with the positions that stand for columns of both inputs. -/
def joinOnCase : Json :=
  let input (k : Int) : Json := .object [("input", .integer k)]
  let values (id : Int) (name : String) : Json := .object
    [("id", .integer id), ("relOp", .string "LogicalValues"), ("inputs", .array []),
      ("tuples", .array []), ("type", .array [.object [("type", .string "BOOLEAN"),
        ("nullable", .bool true), ("name", .string name)]])]
  .array [values 0 "a", values 1 "x",
    .object [("id", .integer 2), ("relOp", .string "LogicalJoin"), ("joinType", .string "inner"),
      ("inputs", .array [.string "0", .string "1"]),
      ("condition", .object [("op", .string "CASE"),
        ("operands", .array [input 0, input 1, input 0])])],
    .object [("id", .integer 3), ("relOp", .string "LogicalFilter"), ("condition", input 1)]]

/-- All positions are in range, and each becomes a column of the input that it lies in. -/
theorem bind_exact_joinOnCase :
    ∃ p next, ofDocument default (Expr.ofDocument (subqueryOfDocument default)) joinOnCase .start =
        .ok (p, next) ∧ p.PositionsInRange ∧ p.bind = .ok p.resolved ∧
      (p.resolved.op ⟨2⟩).columns = [⟨⟨0⟩, 0⟩, ⟨⟨1⟩, 0⟩, ⟨⟨0⟩, 0⟩] ∧
      (p.resolved.op ⟨3⟩).columns = [⟨⟨1⟩, 0⟩] := by
  have hrun : (ofDocument default (Expr.ofDocument (subqueryOfDocument default)) joinOnCase
      .start >>= fun r => r.1.bind >>= fun q => pure (r, q)).holds (fun r =>
        decide ((r.2.op ⟨2⟩).columns = [⟨⟨0⟩, 0⟩, ⟨⟨1⟩, 0⟩, ⟨⟨0⟩, 0⟩] ∧
          (r.2.op ⟨3⟩).columns = [⟨⟨1⟩, 0⟩])) = true := by
    decide +kernel
  obtain ⟨r, hr, hcolumns⟩ := Result.holds_eq_true.mp hrun
  obtain ⟨⟨p, next⟩, hp, hr⟩ := Result.bind_eq_ok.mp hr
  obtain ⟨q, hq, hr⟩ := Result.bind_eq_ok.mp hr
  cases Result.pure_eq_ok.mp hr
  obtain ⟨hrange, rfl⟩ := ((bind_exact hp).1 q).mp hq
  obtain ⟨hjoin, hfilter⟩ := of_decide_eq_true hcolumns
  exact ⟨p, next, hp, hrange, hq, hjoin, hfilter⟩

end Plan

end QueryPlan
