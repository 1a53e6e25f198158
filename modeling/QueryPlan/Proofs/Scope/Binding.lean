import QueryPlan.Proofs.Expr.Stateful
import QueryPlan.Proofs.Scope.Reading
import QueryPlan.Query
/-!
# QueryPlan.Proofs.Scope.Binding

**Binding puts columns in sight in place of positions.** As long as no position is out of range,
every leaf that binding puts in place is a column of the output that the node is bound against,
and that output is what the node can see. So a bound plan is well-formed
(`Plan.Unbound.bind_wellFormed`).
-/

namespace QueryPlan

open List

/-! ### Expressions -/

namespace Expr

variable {output : List ColumnRef} {e : Expr}

/-- A leaf of a bound expression: no position is left, and columns belong to the output. -/
def BoundLeaf (output : List ColumnRef) : Leaf → Prop
  | .positional _ => False
  | .column c => c ∈ output
  | _ => True

/-- While no position was out of range, what is put in place is bound. -/
def binding (output : List ColumnRef) : Carried (Option Nat) where
  State _ := True
  Below s t := t = none → s = none
  Leaf s l := s = none → BoundLeaf output l
  refl _ := id
  trans hst htu h := hst (htu h)
  mono hst hl ht := hl (hst ht)

/-- What binding puts in place of a leaf, and the state after it. -/
def bindLeaf (output : List ColumnRef) (l : Leaf) (s : Option Nat) : Expr × Option Nat :=
  match l, s with
  | .positional i, none =>
    match output[i]? with
    | some c => (.column c, none)
    | none => (.positional i, some i)
  | l, s => (.leaf l, s)

theorem bindM_eq (output : List ColumnRef) (e : Expr) :
    e.bindM output = e.mapLeavesM (bindLeaf output) := by
  rw [bindM]
  congr 1
  funext l s
  cases l with
  | positional i =>
      cases s with
      | some k => rfl
      | none =>
          simp only [bindLeaf]
          cases output[i]? <;> rfl
  | _ => rfl

/-- Binding an expression puts columns of the output in place of positions. -/
theorem bindM_keeps (he : e.Columnless) (s : Option Nat) :
    (binding output).Keeps ((e.bindM output).run s).1.leaves s ((e.bindM output).run s).2 := by
  rw [bindM_eq]
  refine Carried.mapLeavesM_state _ (fun l hl s _ => ?_) trivial
  change (binding output).Keeps (bindLeaf output l s).1.leaves s (bindLeaf output l s).2
  unfold bindLeaf
  split
  · split
    · next hi =>
      refine ⟨trivial, id, fun k hk _ => ?_⟩
      rw [mem_singleton.mp hk]
      exact mem_of_getElem? hi
    · exact ⟨trivial, nofun, fun _ _ h => nomatch h⟩
  · next hother =>
    refine ⟨trivial, id, fun k hk hs => ?_⟩
    rw [mem_singleton.mp hk]
    cases l with
    | column c =>
        have hc : c ∈ e.columns := mem_columns_iff.mpr hl
        rw [he] at hc
        exact absurd hc not_mem_nil
    | positional i => exact hother i rfl hs
    | _ => trivial

end Expr

/-! ### Operators and plans -/

/-- Binding an operator keeps what it shows, and binds all its expressions if no position is out of
range. -/
theorem Operator.Unbound.bindM {output : List ColumnRef} {op op' : Operator} (h : op.Unbound)
    (hrun : (op.bindM output).run none = (op', none)) :
    op'.layout = op.layout ∧ op'.arity = op.arity ∧ op'.FieldsMatch ∧
      ∀ e ∈ op'.exprs, ∀ l ∈ e.leaves, Expr.BoundLeaf output l := by
  have hlist := fun es (hes : ∀ e ∈ es, Expr.Columnless e) =>
    (Expr.binding output).mapM_state (fun e he s _ => Expr.bindM_keeps (hes e he) s)
      (s := none) trivial
  cases op with
  | filter f =>
      obtain ⟨rfl, hstate⟩ := Prod.mk.inj hrun
      refine ⟨rfl, rfl, trivial, fun e he l hl => ?_⟩
      rw [mem_singleton.mp he] at hl
      exact (Expr.bindM_keeps (h.columnless _ (mem_singleton_self _)) none).2.2 l hl hstate
  | join j =>
      obtain ⟨rfl, hstate⟩ := Prod.mk.inj hrun
      refine ⟨rfl, rfl, trivial, fun e he l hl => ?_⟩
      rw [mem_singleton.mp he] at hl
      exact (Expr.bindM_keeps (h.columnless _ (mem_singleton_self _)) none).2.2 l hl hstate
  | project j =>
      obtain ⟨hkeeps, hlength⟩ := hlist j.exprs h.columnless
      obtain ⟨rfl, hstate⟩ := Prod.mk.inj hrun
      refine ⟨congrArg (Layout.own · j.fields) hlength, rfl, ?_, fun e he l hl => ?_⟩
      · exact (show j.fields.length = _ from h.fieldsMatch).trans hlength.symm
      · exact hkeeps.2.2 l (mem_flatMap.mpr ⟨e, he, hl⟩) hstate
  | tableFunction t =>
      obtain ⟨hkeeps, -⟩ := hlist t.args fun e he => h.columnless e (mem_append_left _ he)
      obtain ⟨rfl, hstate⟩ := Prod.mk.inj hrun
      refine ⟨rfl, rfl, h.fieldsMatch, fun e he l hl => ?_⟩
      rcases mem_append.mp he with he | he
      · exact hkeeps.2.2 l (mem_flatMap.mpr ⟨e, he, hl⟩) hstate
      · have hcolumnless := h.columnless e (mem_append_right _ he)
        have hbound := Expr.hasPositional_eq_false_iff.mp (h.results t rfl e he) l hl
        cases l with
        | column c =>
            have hc : c ∈ e.columns := Expr.mem_columns_iff.mpr hl
            rw [hcolumnless] at hc
            exact absurd hc not_mem_nil
        | positional i => cases hbound
        | _ => trivial
  | compound c => exact absurd rfl (h.unfused c default).1
  | leftDeepJoin j => exact absurd rfl (h.unfused default j).2
  | _ =>
      obtain ⟨rfl, -⟩ := Prod.mk.inj hrun
      exact ⟨rfl, rfl, h.fieldsMatch, fun e he => absurd he not_mem_nil⟩

namespace Plan

variable {p q s t : Plan} {l : List NodeId} {id : NodeId}

/-- A node is bound against the columns that it can see, if it is bound at all. -/
theorem bindingOutput_eq_some (h : p.Arranged l) (hid : id ∈ l) {output : List ColumnRef}
    (hout : p.bindingOutput id = .ok (some output)) : output = p.columnsOf (p.reads id) := by
  have hunary : (p.op id).isJoin = false →
      ((p.node id).singleInput >>= fun i => p.output i >>= fun o => .ok (some o)) =
        .ok (some output) → output = p.columnsOf (p.reads id) := by
    intro hjoin hrun
    obtain ⟨i, hi, hrun⟩ := Result.bind_eq_ok.mp hrun
    obtain ⟨o, ho, hrun⟩ := Result.bind_eq_ok.mp hrun
    obtain rfl := Option.some.inj (Except.ok.inj hrun)
    have hinputs : p.inputs id = [i] := Node.singleInput_eq_ok.mp hi
    rw [h.output_eq (h.mem_of_input hid (hinputs ▸ mem_singleton_self i))] at ho
    rw [reads_of_input hjoin hinputs, ← Except.ok.inj ho]
  unfold bindingOutput at hout
  split at hout
  · next hop => exact hunary (by rw [hop]; rfl) hout
  · next hop => exact hunary (by rw [hop]; rfl) hout
  · next hop => exact hunary (by rw [hop]; rfl) hout
  · next hop =>
    obtain ⟨o, ho, hout⟩ := Result.bind_eq_ok.mp hout
    obtain rfl := Option.some.inj (Result.pure_eq_ok.mp hout)
    have hjoin : (p.op id).isJoin = true := by rw [hop]; rfl
    rw [h.output_eq hid] at ho
    rw [reads_of_join hjoin, ← exposed_of_join hjoin, ← Except.ok.inj ho]
  · cases hout

/-- While binding is under way, a node can see what it could see before. -/
theorem bindingOutput_of_sameShape (hp : p.Arranged l) (hid : id ∈ l) (hshape : SameShape p s)
    {output : List ColumnRef} (hout : s.bindingOutput id = .ok (some output)) :
    output = p.columnsOf (p.reads id) := by
  rw [bindingOutput_eq_some (hp.of_sameShape hshape) hid hout, hshape.columnsOf_reads_eq]

/-- Operators that are not bound have no expressions. -/
theorem exprs_of_bindingOutput (hop : (p.op id).Unbound) (hout : p.bindingOutput id = .ok none) :
    (p.op id).exprs = [] := by
  unfold bindingOutput at hout
  cases h : p.op id with
  | filter | project | tableFunction =>
      rw [h] at hout
      obtain ⟨i, -, hout⟩ := Result.bind_eq_ok.mp hout
      obtain ⟨o, -, hout⟩ := Result.bind_eq_ok.mp hout
      cases hout
  | join =>
      rw [h] at hout
      obtain ⟨o, -, hout⟩ := Result.bind_eq_ok.mp hout
      cases hout
  | compound c => exact absurd h (hop.unfused c default).1
  | leftDeepJoin j => exact absurd h (hop.unfused default j).2
  | _ => rfl

/-- Binding a node leaves it as it is, or gives it an operator in which every position was found. -/
theorem bindNode_eq_ok_iff : p.bindNode id = .ok q ↔
    p.bindingOutput id = .ok none ∧ q = p ∨ ∃ output op, p.bindingOutput id = .ok (some output) ∧
      ((p.op id).bindM output).run none = (op, none) ∧ q = p.setOp id op := by
  have hfails : ∀ (r : Plan) (e : Error), (do
      .error (e.within ("Failed to bind " ++ (← (r.node id).text))) : Result Plan) ≠ .ok q := by
    intro r e h
    obtain ⟨_, -, h⟩ := Result.bind_eq_ok.mp h
    cases h
  unfold bindNode
  dsimp only
  cases hout : p.bindingOutput id with
  | error e => simp [hfails]
  | ok o =>
      cases o with
      | none => simp [eq_comm]
      | some output =>
          dsimp only
          split
          · next op hrun =>
            constructor
            · exact fun h => .inr ⟨output, op, rfl, hrun, (Except.ok.inj h).symm⟩
            · rintro (⟨hnone, -⟩ | ⟨_, op', hsome, hrun', rfl⟩)
              · cases hnone
              · cases hsome
                cases hrun.symm.trans hrun'
                rfl
          · next op i hrun =>
            refine ⟨fun h => absurd h (hfails _ _), ?_⟩
            rintro (⟨hnone, -⟩ | ⟨_, op', hsome, hrun', -⟩)
            · cases hnone
            · cases hsome
              cases hrun.symm.trans hrun'

/-- Binding a node leaves it as it is if it has no expressions, or gives it bound ones. -/
theorem bindNode_cases (hop : (p.op id).Unbound) (hq : p.bindNode id = .ok q) :
    q = p ∧ (p.op id).exprs = [] ∨ ∃ output op, p.bindingOutput id = .ok (some output) ∧
      ((p.op id).bindM output).run none = (op, none) ∧ q = p.setOp id op :=
  (bindNode_eq_ok_iff.mp hq).imp_left fun ⟨hout, heq⟩ => ⟨heq, exprs_of_bindingOutput hop hout⟩

/-- Binding is under way: what is done refers to columns in sight, the rest is as it was read. -/
structure Bound (p : Plan) (done : List NodeId) (s : Plan) : Prop extends SameShape p s where
  order_eq : s.order = p.order
  fieldsMatch : ∀ n ∈ p.order, (s.op n).FieldsMatch
  bound : ∀ n ∈ done, ∀ e ∈ (s.op n).exprs, ∀ l ∈ e.leaves, Expr.BoundLeaf
    (p.columnsOf (p.reads n)) l
  unbound : ∀ n ∈ p.order, n ∉ done → (s.op n).Unbound

theorem Bound.bindNode {done : List NodeId} (h : Bound p done s) (hp : p.Arranged p.order)
    (hid : id ∈ p.order) (hdone : id ∉ done) (ht : s.bindNode id = .ok t) :
    Bound p (done ++ [id]) t := by
  have harranged := hp.of_sameShape h.toSameShape
  have hop := h.unbound id hid hdone
  rcases bindNode_cases hop ht with ⟨rfl, hexprs⟩ | ⟨output, op, hout, hrun, rfl⟩
  · refine { h with bound := fun n hn e he => ?_, unbound := fun n hn hnot => ?_ }
    · rcases mem_append.mp hn with hn | hn
      · exact h.bound n hn e he
      · rw [mem_singleton.mp hn, hexprs] at he
        exact absurd he not_mem_nil
    · exact h.unbound n hn fun hmem => hnot (mem_append_left _ hmem)
  · obtain ⟨hlayout, harity, hfields, hbound⟩ := hop.bindM hrun
    have harena := harranged.inArena id hid
    have houtput := bindingOutput_of_sameShape hp hid h.toSameShape hout
    have hself : (s.setOp id op).op id = op := op_setOp_self _ harena
    have hother : ∀ n, n ≠ id → (s.setOp id op).op n = s.op n := fun n hn => by
      rw [Plan.op, node_setOp_of_ne _ hn]
      rfl
    refine { h.toSameShape.trans (.setOp harena hlayout harity) with
      order_eq := h.order_eq
      fieldsMatch := fun n hn => ?_
      bound := fun n hn => ?_
      unbound := fun n hn hnot => ?_ } <;> by_cases hnid : n = id
    · rwa [hnid, hself]
    · rw [hother n hnid]
      exact h.fieldsMatch n hn
    · rw [hnid, hself, ← houtput]
      exact hbound
    · rw [hother n hnid]
      exact h.bound n ((mem_append.mp hn).resolve_right (by simpa using hnid))
    · exact absurd (mem_append_right _ (mem_singleton.mpr hnid)) hnot
    · rw [hother n hnid]
      exact h.unbound n hn fun hmem => hnot (mem_append_left _ hmem)

/-- A bound plan is well-formed, and nothing has left it. -/
theorem Unbound.bind_wellFormed (h : p.Unbound) (hq : p.bind = .ok q) :
    q.WellFormed ∧ q.order = p.order := by
  have hbound := Result.foldlM_induct (motive := fun done s => Bound p done s) hq
    { SameShape.refl p with
      order_eq := rfl
      fieldsMatch := fun n hn => (h.unbound n hn).fieldsMatch
      bound := fun n hn => absurd hn not_mem_nil
      unbound := fun n hn _ => h.unbound n hn }
    fun done id rest s t hsplit hs ht => by
      have hnodup := h.arranged.nodup
      rw [hsplit] at hnodup
      refine hs.bindNode h.arranged (by simp [hsplit]) (fun hmem => ?_) ht
      exact (nodup_append.mp hnodup).2.2 id hmem id mem_cons_self rfl
  refine ⟨wellFormed_of_reads ?_ ?_ ?_ ?_, hbound.order_eq⟩ <;> rw [hbound.order_eq]
  · exact h.arranged.of_sameShape hbound.toSameShape
  · exact hbound.fieldsMatch
  · intro n hn e he
    rw [Expr.hasPositional_eq_false_iff]
    intro l hl
    have hleaf := hbound.bound n hn e he l hl
    cases l with
    | positional i => exact False.elim hleaf
    | _ => rfl
  · intro n hn c hc
    obtain ⟨e, he, hc⟩ := Operator.mem_columns.mp hc
    rw [hbound.reads_eq, hbound.columnCount_eq, ← mem_columnsOf]
    exact hbound.bound n hn e he _ (Expr.mem_columns_iff.mp hc)

/-- An operator without expressions stays, any other one is bound against what its node can see. -/
def BindsTo (p q : Plan) (n : NodeId) : Prop :=
  (p.op n).exprs = [] ∧ q.op n = p.op n ∨
    ((p.op n).bindM (p.columnsOf (p.reads n))).run none = (q.op n, none)

/-- What binding makes of the operators of a plan. -/
theorem Unbound.bindsTo (h : p.Unbound) (hq : p.bind = .ok q) :
    SameShape p q ∧ ∀ n ∈ p.order, p.BindsTo q n := by
  have hall := Result.foldlM_induct (motive := fun done s => SameShape p s ∧
      (∀ n ∈ done, p.BindsTo s n) ∧ ∀ n, n ∉ done → s.op n = p.op n) hq
    ⟨.refl p, nofun, fun _ _ => rfl⟩
    fun done id rest s t hsplit ⟨hshape, hdone, hrest⟩ ht => by
      have hid : id ∈ p.order := by simp [hsplit]
      have hnew : id ∉ done := fun hmem => by
        have hnodup := h.arranged.nodup
        rw [hsplit] at hnodup
        exact (nodup_append.mp hnodup).2.2 id hmem id mem_cons_self rfl
      have hsame := hrest id hnew
      have hop : (s.op id).Unbound := hsame ▸ h.unbound id hid
      rcases bindNode_cases hop ht with ⟨rfl, hexprs⟩ | ⟨output, op, hout, hrun, rfl⟩
      · refine ⟨hshape, fun n hn => ?_, fun n hn => hrest n fun hmem => hn (mem_append_left _ hmem)⟩
        rcases mem_append.mp hn with hn | hn
        · exact hdone n hn
        · rw [mem_singleton.mp hn]
          exact .inl ⟨hsame ▸ hexprs, hsame⟩
      · obtain ⟨hlayout, harity, -⟩ := hop.bindM hrun
        have harena := (h.arranged.of_sameShape hshape).inArena id hid
        have hself : (s.setOp id op).op id = op := op_setOp_self _ harena
        have hother : ∀ n, n ≠ id → (s.setOp id op).op n = s.op n := fun n hn =>
          op_congr (node_setOp_of_ne _ hn)
        rw [bindingOutput_of_sameShape h.arranged hid hshape hout, hsame] at hrun
        refine ⟨hshape.trans (.setOp harena hlayout harity), fun n hn => ?_, fun n hn => ?_⟩
        · by_cases hnid : n = id
          · rw [hnid, BindsTo, hself]
            exact .inr hrun
          · rw [BindsTo, hother n hnid]
            exact hdone n ((mem_append.mp hn).resolve_right (by simpa using hnid))
        · rw [mem_append, mem_singleton, not_or] at hn
          rw [hother n hn.2]
          exact hrest n hn.1
  exact ⟨hall.1, hall.2.1⟩

/-- The bound plan of a document comes from the one that its entries are read to. -/
theorem boundOfDocument_eq_ok {env : Environment} {nested : Expr.PlanBuilder} {d : Json}
    {s s' : BuildState} (h : boundOfDocument env nested d s = .ok (p, s')) :
    ∃ q rels, d.field "rels" = .ok rels ∧
      ofDocument env (Expr.ofDocument nested) rels s = .ok (q, s') ∧ q.bind = .ok p := by
  unfold boundOfDocument at h
  obtain ⟨rels, hrels, h⟩ := Build.bind_lift_eq_ok.mp h
  obtain ⟨q, t, hq, h⟩ := Build.bind_eq_ok.mp h
  obtain ⟨_, -, h⟩ := Build.bind_lift_eq_ok.mp h
  obtain ⟨hbind, rfl⟩ := Build.lift_eq_ok.mp h
  exact ⟨q, rels, hrels, hq, hbind⟩

/-- The bound plan of a document comes from a plan as it is read, which has a node. -/
theorem boundOfDocument_bind (env : Environment) (nested : Expr.PlanBuilder) (j : Json) :
    (boundOfDocument env nested j).Gives fun q =>
      ∃ p : Plan, p.Unbound ∧ p.order ≠ [] ∧ p.bind = .ok q := by
  unfold boundOfDocument
  refine .skip fun _ => .bind (ofDocument_unbound (Expr.ofDocument_columns nested) _) fun p hp => ?_
  have hordered : (liftM (Result.ensure (!p.order.isEmpty) .emptyPlan) : Build Unit).Gives
      fun _ => p.order ≠ [] := .lift fun _ h => by
    have hempty := Result.ensure_eq_ok.mp h
    intro hnil
    rw [hnil] at hempty
    cases hempty
  exact .bind hordered fun _ hne => .lift fun q hq => ⟨p, hp, hne, hq⟩

/-- The bound plan of a document is well-formed and has a node. -/
theorem boundOfDocument_wellFormed (env : Environment) (nested : Expr.PlanBuilder) (j : Json) :
    (boundOfDocument env nested j).Gives fun p => p.WellFormed ∧ p.order ≠ [] := by
  intro s q s' hrun
  obtain ⟨p, hp, hne, hq⟩ := boundOfDocument_bind env nested j s q s' hrun
  obtain ⟨hwf, horder⟩ := hp.bind_wellFormed hq
  exact ⟨hwf, horder ▸ hne⟩

end Plan

end QueryPlan
