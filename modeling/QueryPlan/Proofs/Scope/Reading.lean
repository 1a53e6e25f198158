import QueryPlan.Proofs.Document.Relation
import QueryPlan.Proofs.Expr.Columns
import QueryPlan.Proofs.Plan.WellFormed
/-!
# QueryPlan.Proofs.Scope.Reading

**What is read from a document refers to positions only.** An expression of a document has no
columns (`Expr.ofDocument_columns`), so before a plan is bound, all that is asked of it is that
its nodes are arranged and that its parallel lists match (`Plan.Unbound`).
-/

namespace QueryPlan

open List

namespace Expr

/-- An expression without references to columns. -/
def Columnless (e : Expr) : Prop := e.columns = []

theorem Columnless.app {head : Head} {args : List Expr} (h : ∀ e ∈ args, e.Columnless) :
    (Expr.app head args).Columnless := by
  rw [Columnless, columns_app, flatMap_eq_nil_iff]
  exact h

theorem subqueryOfDocument_columns (build : PlanBuilder) (j : Json) :
    (subqueryOfDocument build j).Gives Columnless := by
  unfold subqueryOfDocument
  refine .skip fun _ => .skip fun _ => .skip fun _ => ?_
  have hleaf : ∀ (nested : Json) (type : Option SqlType),
      Build.Gives (do return .leaf (.subquery (← build nested) type)) Columnless :=
    fun nested type => .skip fun _ => .pure rfl
  split
  · exact hleaf _ _
  · exact hleaf _ _
  · exact .skip fun _ => hleaf _ _

section

variable {build : PlanBuilder} {read : Json → Build Expr}

theorem boundOfDocument_columns (hread : ∀ j, (read j).Gives Columnless) (j : Json) :
    (boundOfDocument read j).Gives fun r => ∀ e ∈ r.2, e.Columnless := by
  unfold boundOfDocument
  refine .skip fun offset => ?_
  have hrest : ∀ es : List Expr, (∀ e ∈ es, e.Columnless) → Build.Gives (do
      let unbounded ← (← j.field "unbounded").asBool
      let preceding ← (← j.field "preceding").asBool
      let following ← (← j.field "following").asBool
      let currentRow ← (← j.field "is_current_row").asBool
      let orderKey ← (← j.field "order_key").asInt
      return ((⟨unbounded, preceding, following, currentRow, !es.isEmpty, orderKey⟩ : FrameBound),
        es)) fun r => ∀ e ∈ r.2, e.Columnless := fun es hes =>
    .skip fun _ => .skip fun _ => .skip fun _ => .skip fun _ => .skip fun _ => .skip fun _ =>
      .skip fun _ => .skip fun _ => .skip fun _ => .skip fun _ => .pure hes
  split
  · exact hrest [] (by simp)
  · exact .bind (hread _) fun e he => hrest [e] (by simpa using he)

theorem orderKeyOfDocument_columns (hread : ∀ j, (read j).Gives Columnless) (j : Json)
    (place : Nat) : (orderKeyOfDocument read j place).Gives fun r => r.1.Columnless := by
  unfold orderKeyOfDocument
  exact .skip fun _ => .bind (hread _) fun e he => .skip fun _ => .pure he

theorem windowOfDocument_columns (hread : ∀ j, (read j).Gives Columnless) (name : String)
    {operands : List Expr} (hoperands : ∀ e ∈ operands, e.Columnless) (type : SqlType)
    (j : Json) : (windowOfDocument read name operands type j).Gives Columnless := by
  unfold windowOfDocument
  refine .skip fun _ => .skip fun _ => .skip fun _ => ?_
  refine .bind (.mapM fun k _ => hread k) fun partition hpartition => ?_
  refine .skip fun _ => .skip fun _ => ?_
  refine .bind (.mapM fun k _ => orderKeyOfDocument_columns hread k.1 k.2) fun order horder => ?_
  refine .skip fun _ => .bind (boundOfDocument_columns hread _) fun lower hlower => ?_
  refine .skip fun _ => .bind (boundOfDocument_columns hread _) fun upper hupper => ?_
  refine .skip fun _ => .skip fun _ => .pure (.app fun e he => ?_)
  simp only [mem_append, mem_map] at he
  rcases he with (((he | he) | ⟨k, hk, rfl⟩) | he) | he
  · exact hoperands e he
  · exact hpartition e he
  · exact horder k hk
  · exact hlower e he
  · exact hupper e he

theorem applicationOfDocument_columns (hread : ∀ j, (read j).Gives Columnless) (name : String)
    (j : Json) : (applicationOfDocument build read name j).Gives Columnless := by
  unfold applicationOfDocument
  refine .skip fun _ => .skip fun _ => .bind (.mapM fun k _ => hread k) fun operands hoperands => ?_
  refine .skip fun _ => .skip fun type => ?_
  have hrest : ∀ k : List Expr → Build Expr,
      (∀ es, (∀ e ∈ es, e.Columnless) → (k es).Gives Columnless) → Build.Gives (
        if name == ScalarOp.isIn.name && j.has "subquery" then do
          let operands ← pure (operands ++ [← subqueryOfDocument build j])
          k operands
        else do
          let operands ← pure operands
          k operands) Columnless := by
    intro k hk
    split
    · refine .bind (subqueryOfDocument_columns build j) fun e he => .bind (.pure ?_) hk
      exact forall_mem_append.mpr ⟨hoperands, by simpa using he⟩
    · exact .bind (.pure hoperands) hk
  split
  · exact hrest _ fun es hes => windowOfDocument_columns hread name hes type j
  · exact hrest _ fun es hes => .pure (.app hes)

theorem caseOfDocument_columns (hread : ∀ j, (read j).Gives Columnless) (j : Json) :
    (caseOfDocument read j).Gives Columnless := by
  unfold caseOfDocument
  exact .skip fun _ => .skip fun _ => .skip fun _ => .bind (.mapM fun k _ => hread k) fun _ hes =>
    .pure (.app hes)

/-- An expression of a document refers to no column. -/
theorem ofDocumentWithin_columns (fuel : Nat) (j : Json) :
    (ofDocumentWithin build fuel j).Gives Columnless := by
  induction fuel generalizing j with
  | zero => exact .fail
  | succ fuel ih =>
      unfold ofDocumentWithin
      split
      · exact .fail
      · split
        · exact .skip fun _ => .skip fun _ => .pure rfl
        · split
          · exact .skip fun _ => .pure rfl
          · split
            · refine .skip fun _ => .skip fun name => ?_
              split
              · exact caseOfDocument_columns ih j
              · exact subqueryOfDocument_columns build j
              · exact applicationOfDocument_columns ih name j
            · exact .fail

theorem ofDocument_columns (build : PlanBuilder) (j : Json) :
    (ofDocument build j).Gives Columnless :=
  ofDocumentWithin_columns _ j

end

end Expr

/-- An operator as it is read: its parallel lists match, and its expressions refer to positions
only. What a table function supplies is no reference at all, and what its cursor forwards are
arguments as well. -/
structure Operator.Unbound (op : Operator) : Prop where
  fieldsMatch : op.FieldsMatch
  columnless : ∀ e ∈ op.exprs, e.Columnless
  results : ∀ t, op = .tableFunction t → ∀ e ∈ t.results, e.hasPositional = false
  cursor : ∀ t, op = .tableFunction t → ∀ k ∈ t.cursorColumns, Expr.positional k ∈ t.args
  /-- Passes make compounds and flattened joins, documents do not. -/
  unfused : ∀ c j, op ≠ .compound c ∧ op ≠ .leftDeepJoin j

/-- An operator without expressions is as it is read, unless it is a compound or a table function. -/
theorem Operator.Unbound.of_exprs_nil {op : Operator} (hfields : op.FieldsMatch)
    (hexprs : op.exprs = []) (hcompound : ∀ c, op ≠ .compound c)
    (htable : ∀ t, op ≠ .tableFunction t) : op.Unbound where
  fieldsMatch := hfields
  columnless e he := absurd (hexprs ▸ he) not_mem_nil
  results t ht := absurd ht (htable t)
  cursor t ht := absurd ht (htable t)
  unfused c j := ⟨hcompound c, fun hop => by
    subst hop
    cases hexprs⟩

/-- A plan as it is read. -/
structure Plan.Unbound (p : Plan) : Prop where
  arranged : p.Arranged p.order
  unbound : ∀ id ∈ p.order, (p.op id).Unbound

namespace Relation

variable {env : Environment} {read : Json → Build Expr} {p : Plan}

theorem inputsOf_subset {j : Json} {inputs : List NodeId} (h : inputsOf p j = .ok inputs) :
    inputs ⊆ p.order := by
  unfold inputsOf at h
  split at h
  · obtain ⟨texts, -, h⟩ := Result.bind_eq_ok.mp h
    obtain ⟨names, -, h⟩ := Result.bind_eq_ok.mp h
    intro id hid
    obtain ⟨s, -, hs⟩ := Result.mapM_mem_right h hid
    obtain ⟨place, -, hplace⟩ := Result.bind_eq_ok.mp hs
    exact mem_of_getElem? (Result.ofOption_eq_ok.mp hplace)
  · obtain ⟨id, hid, h⟩ := Result.bind_eq_ok.mp h
    obtain rfl := Result.pure_eq_ok.mp h
    have hlast : p.order.getLast? = some id := Result.required_eq_ok.mp hid
    exact cons_subset.mpr ⟨mem_of_getLast? hlast, nil_subset _⟩

theorem project_unbound (hread : ∀ j, (read j).Gives Expr.Columnless) (j : Json) :
    (project read j).Gives Operator.Unbound := by
  unfold project
  refine .skip fun _ => .skip fun _ => .bind (.mapM fun k _ => hread k) fun exprs hexprs => ?_
  refine .skip fun _ => .skip fun fields => ?_
  refine .bind (.lift fun _ h => Result.ensure_eq_ok.mp h) fun _ hlength => .pure ?_
  exact ⟨(beq_iff_eq.mp hlength).symm, hexprs, nofun, nofun, fun _ _ => ⟨nofun, nofun⟩⟩

theorem filter_unbound (hread : ∀ j, (read j).Gives Expr.Columnless) (j : Json) :
    (filter read j).Gives Operator.Unbound := by
  unfold filter
  refine .skip fun _ => .bind (hread _) fun e he => .pure ?_
  exact ⟨trivial, by simpa [Operator.exprs] using he, nofun, nofun, fun _ _ => ⟨nofun, nofun⟩⟩

theorem join_unbound (hread : ∀ j, (read j).Gives Expr.Columnless) (j : Json) :
    (join read j).Gives Operator.Unbound := by
  unfold join
  refine .skip fun _ => .skip fun _ => .skip fun _ => .skip fun _ => .bind (hread _) fun e he => ?_
  exact .pure ⟨trivial, by simpa [Operator.exprs] using he, nofun, nofun, fun _ _ => ⟨nofun, nofun⟩⟩

theorem aggregate_unbound {j : Json} {op : Operator} (h : aggregate j = .ok op) : op.Unbound := by
  obtain ⟨a, rfl, hlength, -⟩ := aggregate_eq_ok h
  exact ⟨hlength, fun e he => absurd he not_mem_nil, nofun, nofun, fun _ _ => ⟨nofun, nofun⟩⟩

theorem addOperand_columns (hread : ∀ j, (read j).Gives Expr.Columnless) (function : String)
    (invocation operand : Json) {state : List Nat × List Expr}
    (hargs : ∀ e ∈ state.2, e.Columnless) (hcursor : ∀ k ∈ state.1, Expr.positional k ∈ state.2) :
    (addOperand read p function invocation state operand).Gives fun r =>
      (∀ e ∈ r.2, e.Columnless) ∧ ∀ k ∈ r.1, Expr.positional k ∈ r.2 := by
  unfold addOperand
  refine .skip fun cursor => ?_
  split
  · refine .skip fun _ => .skip fun columns => .pure ⟨?_, fun k hk => ?_⟩
    · refine forall_mem_append.mpr ⟨hargs, fun e he => ?_⟩
      obtain ⟨i, -, rfl⟩ := mem_map.mp he
      rfl
    · exact mem_append_right _ (mem_map_of_mem hk)
  · refine .bind (hread _) fun e he => .pure ⟨?_, fun k hk => mem_append_left _ (hcursor k hk)⟩
    exact forall_mem_append.mpr ⟨hargs, by simpa using he⟩

theorem tableFunction_unbound (hread : ∀ j, (read j).Gives Expr.Columnless) (j : Json) :
    (tableFunction read p j).Gives Operator.Unbound := by
  unfold tableFunction
  refine .skip fun _ => .skip fun _ => .skip fun _ => .skip fun _ => .skip fun _ => ?_
  refine .bind (.foldlM (P := fun r => (∀ e ∈ r.2, e.Columnless) ∧ ∀ k ∈ r.1,
    Expr.positional k ∈ r.2) ⟨nofun, nofun⟩ fun k _ s hs =>
      addOperand_columns hread _ _ k hs.1 hs.2) fun r hr => ?_
  refine .skip fun _ => .skip fun types => .pure ?_
  refine ⟨by simp [Operator.FieldsMatch], fun e he => ?_, ?_, ?_, fun _ _ => ⟨nofun, nofun⟩⟩
  · rcases mem_append.mp he with he | he
    · exact hr.1 e he
    · obtain ⟨i, -, rfl⟩ := mem_map.mp he
      rfl
  · rintro t ⟨⟩ e he
    obtain ⟨i, -, rfl⟩ := mem_map.mp he
    rfl
  · rintro t ⟨⟩
    exact hr.2

theorem scan_unbound {j : Json} {op : Operator} (h : scan env j = .ok op) : op.Unbound := by
  obtain ⟨s, rfl⟩ := scan_eq_ok h
  exact .of_exprs_nil trivial rfl nofun nofun

theorem materializedScan_unbound {j : Json} {op : Operator}
    (h : materializedScan env j = .ok op) : op.Unbound := by
  obtain ⟨s, rfl⟩ := materializedScan_eq_ok h
  exact .of_exprs_nil trivial rfl nofun nofun

theorem sort_unbound {j : Json} {op : Operator} (h : sort j = .ok op) : op.Unbound := by
  obtain ⟨s, rfl⟩ := sort_eq_ok h
  exact .of_exprs_nil trivial rfl nofun nofun

theorem values_unbound {j : Json} {op : Operator} (h : values j = .ok op) : op.Unbound := by
  obtain ⟨v, rfl⟩ := values_eq_ok h
  exact .of_exprs_nil trivial rfl nofun nofun

theorem union_unbound {j : Json} {op : Operator} (h : union env j = .ok op) : op.Unbound := by
  obtain ⟨u, rfl⟩ := union_eq_ok h
  exact .of_exprs_nil trivial rfl nofun nofun

/-- Marking a projection keeps a plan as it is read. -/
theorem markTarget_unbound (hp : p.Unbound) {q : Plan} {inputs : List NodeId}
    {operation : ModifyOperation} {target : ModifyTarget} (hinputs : inputs ⊆ p.order)
    (h : markTarget p operation target inputs = .ok q) : q.Unbound ∧ q.order = p.order := by
  obtain ⟨id, hid, h⟩ := Result.bind_eq_ok.mp h
  have hlive : id ∈ p.order := hinputs (mem_of_head? (Result.required_eq_ok.mp hid))
  have harena := hp.arranged.inArena id hlive
  split at h
  · next j hop =>
    obtain rfl := Result.pure_eq_ok.mp h
    have hj := hop ▸ hp.unbound id hlive
    refine ⟨⟨hp.arranged.of_sameShape (.setOp harena ?_ ?_), fun x hx => ?_⟩, rfl⟩
    · rw [hop]; rfl
    · rw [hop]; rfl
    · by_cases hxid : x = id
      · rw [hxid, Plan.op_setOp_self _ harena]
        exact ⟨hj.fieldsMatch, hj.columnless, nofun, nofun, fun _ _ => ⟨nofun, nofun⟩⟩
      · rw [Plan.op, Plan.node_setOp_of_ne _ hxid]
        exact hp.unbound x hx
  · cases h

theorem modify_unbound (hp : p.Unbound) {q : Plan} {inputs : List NodeId} {j : Json}
    {op : Operator} (hinputs : inputs ⊆ p.order) (h : modify env p inputs j = .ok (q, op)) :
    (q.Unbound ∧ q.order = p.order) ∧ op.Unbound := by
  obtain ⟨⟨m, rfl⟩, hplan⟩ := modify_eq_ok h
  refine ⟨?_, .of_exprs_nil trivial rfl nofun nofun⟩
  rcases hplan with rfl | ⟨operation, target, hmark⟩
  · exact ⟨hp, rfl⟩
  · exact markTarget_unbound hp hinputs hmark

/-- What holds of the operator of an entry, whatever it is, if it does not change a table. -/
structure OperatorsGive (env : Environment) (read : Json → Build Expr) (p : Plan) (j : Json)
    (P : Operator → Prop) : Prop where
  scan : ∀ op, scan env j = .ok op → P op
  materializedScan : ∀ op, materializedScan env j = .ok op → P op
  project : (project read j).Gives P
  filter : (filter read j).Gives P
  aggregate : ∀ op, aggregate j = .ok op → P op
  join : (join read j).Gives P
  sort : ∀ op, sort j = .ok op → P op
  values : ∀ op, values j = .ok op → P op
  tableFunction : (tableFunction read p j).Gives P
  union : ∀ op, union env j = .ok op → P op

/-- The plan, the inputs and the operator of an entry. -/
theorem nodeOf_gives {P : Operator → Prop} {Q : Plan → Prop} {j : Json} (hp : Q p)
    (h : OperatorsGive env read p j P)
    (hmodify : ∀ inputs ⊆ p.order, ∀ r, modify env p inputs j = .ok r → Q r.1 ∧ P r.2) :
    (nodeOf env read p j).Gives fun r => Q r.1 ∧ r.2.1 ⊆ p.order ∧ P r.2.2 := by
  unfold nodeOf
  have hreading : ∀ {m : Build Operator}, m.Gives P → Build.Gives (do
      let inputs ← inputsOf p j
      return (p, inputs, ← m)) fun r => Q r.1 ∧ r.2.1 ⊆ p.order ∧ P r.2.2 := fun hm =>
    .bind (.lift fun _ h => inputsOf_subset h) fun _ hinputs => .bind hm fun _ hop =>
      .pure ⟨hp, hinputs, hop⟩
  have hleaf : ∀ {x : Result Operator}, (∀ op, x = .ok op → P op) → Build.Gives (do
      return (p, [], ← x)) fun r => Q r.1 ∧ r.2.1 ⊆ p.order ∧ P r.2.2 := fun hx =>
    .bind (.lift hx) fun _ hop => .pure ⟨hp, nil_subset _, hop⟩
  refine .skip fun _ => .skip fun name => ?_
  split
  · exact hleaf h.scan
  · exact hleaf h.materializedScan
  · exact hreading h.project
  · exact hreading h.filter
  · exact hreading (.lift h.aggregate)
  · exact hreading h.join
  · exact hreading (.lift h.sort)
  · exact hleaf h.values
  · refine .bind (.lift fun _ h => inputsOf_subset h) fun inputs hinputs => ?_
    refine .bind (.lift (hmodify inputs hinputs)) fun r hr => .pure ?_
    exact ⟨hr.1, hinputs, hr.2⟩
  · exact hreading h.tableFunction
  · exact hreading (.lift h.union)
  · exact .fail

theorem nodeOf_unbound (hread : ∀ j, (read j).Gives Expr.Columnless) (hp : p.Unbound) (j : Json) :
    (nodeOf env read p j).Gives fun r =>
      (r.1.Unbound ∧ r.1.order = p.order) ∧ r.2.1 ⊆ p.order ∧ r.2.2.Unbound :=
  nodeOf_gives (Q := fun q => q.Unbound ∧ q.order = p.order) ⟨hp, rfl⟩
    { scan := fun _ => scan_unbound
      materializedScan := fun _ => materializedScan_unbound
      project := project_unbound hread j
      filter := filter_unbound hread j
      aggregate := fun _ => aggregate_unbound
      join := join_unbound hread j
      sort := fun _ => sort_unbound
      values := fun _ => values_unbound
      tableFunction := tableFunction_unbound hread j
      union := fun _ => union_unbound }
    fun _ hinputs _ h => modify_unbound hp hinputs h

/-- A plan that is read stays one with the node of a further entry. -/
theorem addNode_unbound (hread : ∀ j, (read j).Gives Expr.Columnless) (hp : p.Unbound) (j : Json) :
    (addNode env read p j).Gives Plan.Unbound := by
  unfold addNode
  refine .skip fun _ => .skip fun _ => .bind (nodeOf_unbound hread hp j) fun r hr => ?_
  obtain ⟨q, inputs, op⟩ := r
  obtain ⟨⟨hq, horder⟩, hinputs, hop⟩ := hr
  refine .skip fun buildId => ?_
  refine .bind (.lift fun _ h => Result.ensure_eq_ok.mp (Result.within_eq_ok.mp h)) fun _ harity => ?_
  have hlist : q.Arranged (q.order ++ []) := by rw [append_nil]; exact hq.arranged
  refine .pure ⟨hlist.insert harity (fun i hi => horder ▸ hinputs hi)
    |>.of_sameShape (.of_arena_eq rfl), fun x hx => ?_⟩
  change ((q.alloc (.make buildId inputs op)).node x).op.Unbound
  rw [Plan.node_alloc]
  split
  · exact hop
  · next hne =>
    exact hq.unbound x ((mem_append.mp hx).resolve_right fun h => hne (mem_singleton.mp h))

end Relation

namespace Plan

/-- The plan of a document is as it is read. -/
theorem ofDocument_unbound {env : Environment} {read : Json → Build Expr}
    (hread : ∀ j, (read j).Gives Expr.Columnless) (j : Json) :
    (ofDocument env read j).Gives Unbound := by
  unfold ofDocument
  refine .skip fun entries => .foldlM ?_ fun k _ p hp => Relation.addNode_unbound hread hp k
  exact ⟨⟨⟨.nil, nofun, nofun⟩, nofun⟩, nofun⟩

end Plan

end QueryPlan
