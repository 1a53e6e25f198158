import QueryPlan.Proofs.Meaning.Joins
import QueryPlan.Proofs.Scope.Removal
import QueryPlan.Proofs.Scope.Repositioning
/-!
# QueryPlan.Proofs.CrossJoins.Step

**Conjuncts handed down to a join.** A filter over an inner join on `true` that nothing else reads
hands down the conjuncts that refer to both inputs (`Plan.hoistSite?`). If they are all of its
conjuncts, its readers come to read the join instead (`Plan.isUsedUp`). `Plan.Hoisted` says what a
step does in either case. The rows of the join are those for which the conjuncts are true that it
was handed, and every other node has the rows it had (`Hoisted.rows_eq`).
-/

namespace QueryPlan

open List

namespace Plan

variable {p q r : Plan} {id join x : NodeId} {f : Filter} {j : Join}

/-! ### Where conjuncts go -/

/-- Whether a node is an inner join on `true` that is read at one place. -/
def isOpenJoin (p : Plan) (id : NodeId) : Bool :=
  match p.op id with
  | .join j => j.kind == .inner && j.condition.isTrue && p.useCount id == 1
  | _ => false

/-- Whether an expression refers to both inputs of a join. -/
def crosses (p : Plan) (join : NodeId) (e : Expr) : Bool :=
  match p.inputs join with
  | [left, right] => e.refersToBoth (p.columnsOf [left]) (p.columnsOf [right])
  | _ => false

/-- The join to which a filter hands conjuncts down. -/
def hoistSite? (p : Plan) (id : NodeId) : Option NodeId :=
  match p.op id, p.inputs id with
  | .filter f, [join] =>
    if p.isOpenJoin join && f.condition.conjuncts.any (p.crosses join) then some join else none
  | _, _ => none

/-- Whether a filter hands all of its conjuncts down. -/
def isUsedUp (p : Plan) (id : NodeId) : Bool :=
  match p.op id, p.hoistSite? id with
  | .filter f, some join => f.condition.conjuncts.all (p.crosses join)
  | _, _ => false

theorem isOpenJoin_eq_true : p.isOpenJoin join = true ↔ ∃ j, p.op join = .join j ∧
    j.kind = .inner ∧ j.condition.isTrue = true ∧ p.useCount join = 1 := by
  unfold isOpenJoin
  cases hop : p.op join <;> simp [and_assoc]

theorem hoistSite?_eq_some : p.hoistSite? id = some join ↔ ∃ f, p.op id = .filter f ∧
    p.inputs id = [join] ∧ p.isOpenJoin join = true ∧
      ∃ e ∈ f.condition.conjuncts, p.crosses join e = true := by
  unfold hoistSite?
  split
  · next f i hop hinputs =>
    simp only [hop, hinputs, Option.ite_none_right_eq_some, Bool.and_eq_true, any_eq_true,
      Option.some.injEq]
    constructor
    · rintro ⟨⟨hopen, hcrosses⟩, rfl⟩
      exact ⟨f, rfl, rfl, hopen, hcrosses⟩
    · rintro ⟨f', hf, hi, hopen, hcrosses⟩
      cases hf
      obtain rfl := (cons.inj hi).1
      exact ⟨⟨hopen, hcrosses⟩, rfl⟩
  · next hnot =>
    refine iff_of_false (by simp) ?_
    rintro ⟨f, hop, hinputs, -⟩
    exact hnot f join hop hinputs

/-- A filter hands nothing down to another node than an inner join on `true`. -/
theorem hoistSite?_of_closed {i : NodeId} (hinputs : p.inputs id = [i])
    (hclosed : p.isOpenJoin i = false) : p.hoistSite? id = none := by
  refine Option.eq_none_iff_forall_ne_some.mpr fun join hsite => ?_
  obtain ⟨_, -, hjoin, hopen, -⟩ := hoistSite?_eq_some.mp hsite
  cases hinputs.symm.trans hjoin
  rw [hclosed] at hopen
  cases hopen

theorem isUsedUp_of_site (hop : p.op id = .filter f) (hsite : p.hoistSite? id = some join) :
    p.isUsedUp id = f.condition.conjuncts.all (p.crosses join) := by
  rw [isUsedUp, hop, hsite]

/-- All conjuncts are handed down if none remains. -/
theorem isUsedUp_iff (hop : p.op id = .filter f) (hsite : p.hoistSite? id = some join) :
    p.isUsedUp id = true ↔ f.condition.conjuncts.filter (fun e => !p.crosses join e) = [] := by
  rw [isUsedUp_of_site hop hsite, all_eq_true, filter_eq_nil_iff]
  exact forall₂_congr fun e _ => by simp

theorem isUsedUp_of_none (hnone : p.hoistSite? id = none) : p.isUsedUp id = false := by
  rw [isUsedUp, hnone]
  split <;> simp_all

/-- What is read in place of a node once a filter has handed its conjuncts down. -/
def stepTop (p : Plan) (id join : NodeId) : NodeId → NodeId :=
  if p.isUsedUp id then id.replaced join else fun i => i

/-! ### What a step does -/

/-- A filter handed conjuncts down to a join. -/
structure Hoisted (p q : Plan) (id join : NodeId) (f : Filter) (j : Join) : Prop where
  unambiguous : p.Unambiguous
  live : id ∈ p.order
  op_id : p.op id = .filter f
  site : p.hoistSite? id = some join
  op_join : p.op join = .join j
  unambiguous_hoisted : q.Unambiguous
  order_eq : q.order = p.order.filter fun x => !(x == id && p.isUsedUp id)
  columnCount_eq : ∀ x ∈ p.order, q.columnCount x = p.columnCount x
  node_join : ∃ c, q.node join = { p.node join with op := .join { j with condition := c } } ∧
    c.conjuncts = f.condition.conjuncts.filter (p.crosses join)
  node_id : p.isUsedUp id = false → ∃ g, q.node id = { p.node id with op := .filter g } ∧
    g.condition.conjuncts = f.condition.conjuncts.filter fun e => !p.crosses join e
  node_other : ∀ x ∈ p.order, x ≠ id → x ≠ join →
    q.node x = (p.node x).reread (p.stepTop id join) (p.repositioned q x x)

/-- A filter over a join sees what the join sees. -/
theorem reads_over_join (hop : p.op id = .filter f) (hinputs : p.inputs id = [join])
    (hopJoin : p.op join = .join j) : p.reads id = p.reads join := by
  rw [reads_of_input (by rw [hop]; rfl) hinputs,
    exposed_of_join (by rw [hopJoin]; rfl), reads_of_join (by rw [hopJoin]; rfl)]

theorem Scoped.columns_subset_of_conjunct (h : p.Scoped) (hid : id ∈ p.order)
    (hop : p.op id = .filter f) {e : Expr} (he : e ∈ f.condition.conjuncts) :
    e.columns ⊆ p.columnsOf (p.reads id) := fun _ hc =>
  h.mem_columnsOf hid (columns_of_filter hop ▸ Expr.columns_subset_of_mem_conjuncts he hc)

/-- A condition made of some of the conjuncts has these conjuncts. -/
theorem conjuncts_of_some {P : Expr → Bool} {e : Expr}
    (h : Expr.all? (f.condition.conjuncts.filter P) = some e) :
    e.conjuncts = f.condition.conjuncts.filter P :=
  Expr.conjuncts_of_all?_conjuncts h fun _ hd =>
    Expr.conjuncts_of_mem_conjuncts (mem_filter.mp hd).1

/-- A filter may keep some of its conjuncts only. -/
theorem Unambiguous.setFilter (h : p.Unambiguous) (hid : id ∈ p.order) (hop : p.op id = .filter f)
    {P : Expr → Bool} {rest : Expr}
    (hrest : Expr.all? (f.condition.conjuncts.filter P) = some rest) :
    (p.setOp id (.filter ⟨rest⟩)).Unambiguous ∧ SameShape p (p.setOp id (.filter ⟨rest⟩)) := by
  refine ⟨h.setOp hid (by rw [hop]; rfl) (by rw [hop]; rfl) fun c hc => h.mem_columnsOf hid ?_,
    .setOp (h.inArena hid) (by rw [hop]; rfl) (by rw [hop]; rfl)⟩
  rw [columns_of_filter hop]
  exact Expr.columns_subset_of_all? (filter_subset_self _) hrest
    (by simpa [Operator.columns, Operator.exprs] using hc)

section Ok

variable (h : p.Unambiguous) (hid : id ∈ p.order) (hop : p.op id = .filter f)
  (hsite : p.hoistSite? id = some join) (hopJoin : p.op join = .join j) {condition : Expr}
  (hcondition : Expr.all? (f.condition.conjuncts.filter (p.crosses join)) = some condition)
include h hid hop hsite hopJoin hcondition

/-- The join may get the condition, and a filter with other conjuncts of its own may stay. -/
theorem Unambiguous.setJoin : (p.setOp join (.join { j with condition := condition })).Unambiguous ∧
    SameShape p (p.setOp join (.join { j with condition := condition })) := by
  obtain ⟨f', hf, hinputs, -, -⟩ := hoistSite?_eq_some.mp hsite
  cases hf.symm.trans hop
  have hjoin : join ∈ p.order := h.arranged.mem_of_input hid (hinputs ▸ mem_singleton_self join)
  refine ⟨h.setOp hjoin (by rw [hopJoin]; rfl) (by rw [hopJoin]; rfl) fun c hc => ?_,
    .setOp (h.inArena hjoin) (by rw [hopJoin]; rfl) (by rw [hopJoin]; rfl)⟩
  -- The filter saw every column that the condition refers to.
  rw [← reads_over_join hop hinputs hopJoin]
  refine h.mem_columnsOf hid ?_
  rw [columns_of_filter hop]
  exact Expr.columns_subset_of_all? (filter_subset_self _) hcondition
    (by simpa [Operator.columns, Operator.exprs] using hc)

/-- With conjuncts of its own, the filter stays. -/
theorem Unambiguous.hoisted_kept {rest : Expr} (hrest : Expr.all?
      (f.condition.conjuncts.filter fun e => !p.crosses join e) = some rest) :
    Hoisted p ((p.setOp join (.join { j with condition := condition })).setOp id (.filter ⟨rest⟩))
      id join f j := by
  obtain ⟨h₁, hshape₁⟩ := h.setJoin hid hop hsite hopJoin hcondition
  obtain ⟨f', hf, hinputs, -, -⟩ := hoistSite?_eq_some.mp hsite
  cases hf.symm.trans hop
  have hpair := h.arranged.before id hid join (hinputs ▸ mem_singleton_self join)
  have hne := ne_of_pair h.nodup hpair
  generalize hr : p.setOp join (.join { j with condition := condition }) = r at h₁ hshape₁ ⊢
  have hopR : r.op id = .filter f := by
    rw [← hr, Plan.op, node_setOp_of_ne _ hne.symm]
    exact hop
  have horder : r.order = p.order := by rw [← hr, order_setOp]
  have hidR : id ∈ r.order := horder ▸ hid
  obtain ⟨h₂, hshape₂⟩ := h₁.setFilter hidR hopR hrest
  have hshape := hshape₁.trans hshape₂
  have hstays : p.isUsedUp id = false := by
    rw [← Bool.not_eq_true, isUsedUp_iff hop hsite, ← Expr.all?_eq_none_iff, hrest]
    exact Option.some_ne_none rest
  have htop : p.stepTop id join = fun i => i := by
    rw [stepTop, if_neg (by simp [hstays])]
  exact {
    unambiguous := h
    live := hid
    op_id := hop
    site := hsite
    op_join := hopJoin
    unambiguous_hoisted := h₂
    order_eq := by simp [horder, hstays]
    columnCount_eq := fun x _ => by rw [hshape.columnCount_eq]
    node_join := by
      refine ⟨condition, ?_, conjuncts_of_some hcondition⟩
      rw [node_setOp_of_ne _ hne, ← hr, Plan.setOp, node_modify_self _ (h.inArena (mem_left hpair))]
    node_id := fun _ => by
      refine ⟨⟨rest⟩, ?_, conjuncts_of_some hrest⟩
      rw [Plan.setOp, node_modify_self _ (h₁.inArena hidR), ← hr, node_setOp_of_ne _ hne.symm]
    node_other := fun x hx hxid hxjoin => by
      rw [node_setOp_of_ne _ hxid, ← hr, node_setOp_of_ne _ hxjoin, htop]
      refine (Node.reread_eq_self (fun _ _ => rfl) fun c hc => ?_).symm
      exact repositioned_of_eq (hr ▸ hshape.columnsOf_reads_eq x) (h.mem_columnsOf hx hc) }

/-- Without conjuncts of its own, the filter leaves. -/
theorem Unambiguous.hoisted_gone
    (hrest : f.condition.conjuncts.filter (fun e => !p.crosses join e) = []) :
    ∃ q, (p.setOp join (.join { j with condition := condition })).bypass id none = .ok q ∧
      Hoisted p q id join f j := by
  obtain ⟨h₁, hshape₁⟩ := h.setJoin hid hop hsite hopJoin hcondition
  obtain ⟨f', hf, hinputs, hopen, -⟩ := hoistSite?_eq_some.mp hsite
  cases hf.symm.trans hop
  have hread : join ∈ p.inputs id := hinputs ▸ mem_singleton_self join
  have hpair := h.arranged.before id hid join hread
  have hne := ne_of_pair h.nodup hpair
  obtain ⟨-, -, -, -, huse⟩ := isOpenJoin_eq_true.mp hopen
  generalize hr : p.setOp join (.join { j with condition := condition }) = r at h₁ hshape₁ ⊢
  have hopR : r.op id = .filter f := by
    rw [← hr, Plan.op, node_setOp_of_ne _ hne.symm]
    exact hop
  have horder : r.order = p.order := by rw [← hr, order_setOp]
  have hinputsR : r.inputs id = [join] := (hshape₁.inputs_eq id).trans hinputs
  obtain ⟨s, hs, hf⟩ := h₁.bypass_ok (horder ▸ hid) (by rw [hopR]; rfl) hinputsR
  have hgone : p.isUsedUp id = true := (isUsedUp_iff hop hsite).mpr hrest
  have htop : p.stepTop id join = id.replaced join := if_pos hgone
  -- Nothing but the filter reads the join, so no join comes to list it twice.
  have hjoins : ∀ n ∈ r.order, (r.op n).isJoin = true → id ∈ r.inputs n → join ∉ r.inputs n := by
    intro n hn hjoin _ hread'
    rw [hshape₁.inputs_eq] at hread'
    obtain rfl := reader_unique huse (horder ▸ hn) hread' hid hread
    rw [hopR] at hjoin
    cases hjoin
  have hremoved : SameShape s (s.remove id) := .of_arena_eq rfl
  refine ⟨s.remove id, hs, ?_⟩
  exact {
    unambiguous := h
    live := hid
    op_id := hop
    site := hsite
    op_join := hopJoin
    unambiguous_hoisted := by
      refine (hf.unambiguous_lowered h₁ hjoins).remove fun n hn _ => hf.not_mem_inputs ?_
      exact hf.order_eq ▸ hn
    order_eq := by
      rw [order_remove, hf.order_eq, horder]
      exact filter_congr fun x _ => by simp [hgone, bne]
    columnCount_eq := fun x hx => by
      rw [hremoved.columnCount_eq, hf.columnCount_lowered (horder ▸ hx), hshape₁.columnCount_eq]
    node_join := by
      refine ⟨condition, ?_, conjuncts_of_some hcondition⟩
      rw [node_remove, hf.node_other join (by simp), ← hr, Plan.setOp,
        node_modify_self _ (h.inArena (mem_left hpair))]
    node_id := fun hstays => by rw [hgone] at hstays; cases hstays
    node_other := fun x hx _ hxjoin => by
      rw [node_remove, hf.node_eq_reread (horder ▸ hx), ← hr, node_setOp_of_ne _ hxjoin, hr, htop]
      refine Node.reread_congr (fun _ _ => rfl) fun c _ => ?_
      rw [repositioned, repositioned, hremoved.columnsOf_reads_eq, hshape₁.columnsOf_reads_eq] }

end Ok

theorem Arranged.ownColumns_eq (h : p.Arranged p.order) (hx : x ∈ p.order) :
    p.ownColumns x = .ok (p.columnsOf [x]) := by
  rw [ownColumns, Result.bind_ok (h.width_eq hx), columnsOf, flatMap_singleton]
  rfl

/-- A filter over another node than an open join stays as it is. -/
theorem hoistCondition_of_closed (hop : p.op id = .filter f) (hinputs : p.inputs id = [join])
    (hclosed : p.isOpenJoin join = false) : p.hoistCondition id = .ok p := by
  unfold hoistCondition
  rw [hop]
  dsimp only
  rw [Result.bind_ok (Node.singleInput_eq_ok.mpr hinputs)]
  cases hopJoin : p.op join with
  | join j =>
      rw [isOpenJoin, hopJoin] at hclosed
      refine if_pos ?_
      grind
  | _ => rfl

/-- A filter over an open join parts with the conjuncts that refer to both inputs. -/
theorem Arranged.hoistCondition_of_open (h : p.Arranged p.order) (hid : id ∈ p.order)
    (hop : p.op id = .filter f) (hinputs : p.inputs id = [join]) (hopJoin : p.op join = .join j)
    (hopen : p.isOpenJoin join = true) : p.hoistCondition id =
      match Expr.all? (f.condition.conjuncts.filter (p.crosses join)) with
      | none => .ok p
      | some condition =>
        let r := p.setOp join (.join { j with condition := condition })
        match Expr.all? (f.condition.conjuncts.filter fun e => !p.crosses join e) with
        | none => r.bypass id none
        | some rest => .ok (r.setOp id (.filter ⟨rest⟩)) := by
  have hjoin : join ∈ p.order := h.mem_of_input hid (hinputs ▸ mem_singleton_self join)
  obtain ⟨left, right, hsides⟩ := h.sides_of_join hjoin hopJoin
  have hleft : left ∈ p.order := h.mem_of_input hjoin (hsides ▸ mem_cons_self)
  have hright : right ∈ p.order :=
    h.mem_of_input hjoin (hsides ▸ mem_cons_of_mem _ (mem_singleton_self right))
  have hzero : (p.node join).input 0 = .ok left := input_zero hsides
  have hone : (p.node join).input 1 = .ok right := by
    rw [Node.input, show (p.node join).inputs = [left, right] from hsides]
    rfl
  have hcrosses : Expr.refersToBoth (p.columnsOf [left]) (p.columnsOf [right]) =
      p.crosses join := by
    funext e
    rw [crosses, hsides]
  unfold hoistCondition
  rw [hop]
  dsimp only
  rw [Result.bind_ok (Node.singleInput_eq_ok.mpr hinputs), hopJoin]
  dsimp only
  rw [isOpenJoin, hopJoin] at hopen
  rw [if_neg (by grind), Result.bind_ok hzero, Result.bind_ok (h.ownColumns_eq hleft),
    Result.bind_ok hone, Result.bind_ok (h.ownColumns_eq hright), hcrosses,
    partition_eq_filter_filter]
  cases Expr.all? (f.condition.conjuncts.filter (p.crosses join)) with
  | none => rfl
  | some condition =>
      dsimp only [Function.comp_def]
      cases Expr.all? (f.condition.conjuncts.filter fun e => !p.crosses join e) <;> rfl

/-- A step either leaves the plan alone or hands conjuncts down. -/
theorem Unambiguous.hoistCondition_ok (h : p.Unambiguous) (hid : id ∈ p.order) :
    (p.hoistSite? id = none ∧ p.hoistCondition id = .ok p) ∨
      ∃ q join f j, p.hoistCondition id = .ok q ∧ Hoisted p q id join f j := by
  cases hop : p.op id with
  | filter f =>
      have harity := h.arranged.arity id hid
      rw [hop] at harity
      obtain ⟨join, hinputs⟩ := Arity.exactly_one_admits harity
      cases hopen : p.isOpenJoin join with
      | false =>
          exact .inl
            ⟨hoistSite?_of_closed hinputs hopen, hoistCondition_of_closed hop hinputs hopen⟩
      | true =>
          obtain ⟨j, hopJoin, -⟩ := isOpenJoin_eq_true.mp hopen
          rw [h.arranged.hoistCondition_of_open hid hop hinputs hopJoin hopen]
          cases hcondition : Expr.all? (f.condition.conjuncts.filter (p.crosses join)) with
          | none =>
              refine .inl ⟨?_, rfl⟩
              rw [hoistSite?, hop, hinputs]
              have hempty := filter_eq_nil_iff.mp (Expr.all?_eq_none_iff.mp hcondition)
              simpa [hopen] using hempty
          | some condition =>
              obtain ⟨e, he⟩ := exists_mem_of_ne_nil _ fun hempty => by
                rw [Expr.all?_eq_none_iff.mpr hempty] at hcondition
                cases hcondition
              have hsite : p.hoistSite? id = some join := hoistSite?_eq_some.mpr
                ⟨f, hop, hinputs, hopen, e, (mem_filter.mp he).1, (mem_filter.mp he).2⟩
              right
              dsimp only
              cases hrest : Expr.all? (f.condition.conjuncts.filter fun e => !p.crosses join e) with
              | none =>
                  obtain ⟨q, hq, s⟩ := h.hoisted_gone hid hop hsite hopJoin hcondition
                    (Expr.all?_eq_none_iff.mp hrest)
                  exact ⟨q, join, f, j, hq, s⟩
              | some rest =>
                  exact ⟨_, join, f, j, rfl,
                    h.hoisted_kept hid hop hsite hopJoin hcondition hrest⟩
  | _ =>
      refine .inl ⟨?_, ?_⟩
      · rw [hoistSite?, hop]
      · rw [hoistCondition, hop]

namespace Hoisted

variable (s : Hoisted p q id join f j)
include s

theorem inputs_id : p.inputs id = [join] := by
  obtain ⟨f', hf, hinputs, -, -⟩ := hoistSite?_eq_some.mp s.site
  exact hinputs

theorem join_mem : join ∈ p.inputs id := s.inputs_id ▸ mem_singleton_self join

theorem pair : [join, id] <+ p.order := s.unambiguous.arranged.before id s.live join s.join_mem

theorem join_live : join ∈ p.order := mem_left s.pair

theorem join_ne : join ≠ id := ne_of_pair s.unambiguous.nodup s.pair

theorem isOpenJoin : p.isOpenJoin join = true := by
  obtain ⟨f', hf, -, hopen, -⟩ := hoistSite?_eq_some.mp s.site
  exact hopen

theorem isTrue : j.condition.isTrue = true ∧ j.kind = .inner := by
  obtain ⟨j', hj, hkind, htrue, -⟩ := isOpenJoin_eq_true.mp s.isOpenJoin
  cases hj.symm.trans s.op_join
  exact ⟨htrue, hkind⟩

/-- Nothing but the filter reads the join. -/
theorem not_mem_inputs (hx : x ∈ p.order) (hxid : x ≠ id) : join ∉ p.inputs x := by
  obtain ⟨-, -, -, -, huse⟩ := isOpenJoin_eq_true.mp s.isOpenJoin
  exact fun hread => hxid (reader_unique huse hx hread s.live s.join_mem)

theorem mem_order : x ∈ q.order ↔ x ∈ p.order ∧ (x = id → p.isUsedUp id = false) := by
  rw [s.order_eq, mem_filter]
  by_cases hx : x = id <;> simp [hx]

theorem join_mem_order : join ∈ q.order :=
  s.mem_order.mpr ⟨s.join_live, fun h => absurd h s.join_ne⟩

theorem inputs_join : q.inputs join = p.inputs join := by
  obtain ⟨c, hnode, -⟩ := s.node_join
  exact (congrArg Node.inputs hnode).trans rfl

/-- Every node that stays reads the join where it read a filter that left. -/
theorem inputs_eq (hx : x ∈ q.order) : q.inputs x = (p.inputs x).map (p.stepTop id join) := by
  obtain ⟨hxp, hgone⟩ := s.mem_order.mp hx
  have hunread : ∀ {y}, id ∉ p.inputs y → (p.inputs y).map (p.stepTop id join) = p.inputs y := by
    intro y hy
    rw [stepTop]
    split
    · exact NodeId.map_replaced_of_not_mem join hy
    · exact map_id' _
  by_cases hxid : x = id
  · subst hxid
    obtain ⟨g, hnode, -⟩ := s.node_id (hgone rfl)
    rw [hunread (s.unambiguous.arranged.not_mem_inputs_self s.live)]
    exact (congrArg Node.inputs hnode).trans rfl
  by_cases hxjoin : x = join
  · rw [hxjoin, s.inputs_join,
      hunread (s.unambiguous.arranged.not_reads_of_input s.live s.join_mem)]
  · exact congrArg Node.inputs (s.node_other x hxp hxid hxjoin)

omit s in
theorem stepTop_of_ne {i : NodeId} (hi : i ≠ id) : p.stepTop id join i = i := by
  rw [stepTop]
  split
  · exact NodeId.replaced_of_ne join hi
  · rfl

theorem columnCount_stepTop {i : NodeId} (hi : i ∈ p.order) :
    q.columnCount (p.stepTop id join i) = p.columnCount i := by
  by_cases hid : i = id
  · rw [stepTop]
    split
    · rw [hid, NodeId.replaced_self, s.columnCount_eq join s.join_live,
        s.unambiguous.arranged.columnCount_of_first s.live (by rw [s.op_id]; rfl) s.inputs_id]
    · exact s.columnCount_eq i hi
  · rw [stepTop_of_ne hid, s.columnCount_eq i hi]

theorem columnCounts_eq (hx : x ∈ q.order) :
    (q.inputs x).map q.columnCount = (p.inputs x).map p.columnCount := by
  rw [s.inputs_eq hx, map_map]
  exact map_congr_left fun i hi =>
    s.columnCount_stepTop (s.unambiguous.arranged.mem_of_input (s.mem_order.mp hx).1 hi)

theorem idxOf_lt (hx : x ∈ q.order) {c : ColumnRef} (hc : c ∈ (p.op x).columns) :
    (p.columnsOf (p.reads x)).idxOf c < (q.columnsOf (q.reads x)).length := by
  have hxp := (s.mem_order.mp hx).1
  rw [s.unambiguous_hoisted.arranged.length_columnsOf_reads hx, s.columnCounts_eq hx,
    ← s.unambiguous.arranged.length_columnsOf_reads hxp]
  exact s.unambiguous.idxOf_lt hxp hc

/-- The join sees what it saw. -/
theorem scope_join : q.columnsOf (q.reads join) = p.columnsOf (p.reads join) := by
  obtain ⟨c, hnode, -⟩ := s.node_join
  have hop : q.op join = .join { j with condition := c } := congrArg Node.op hnode
  rw [reads_of_join (by rw [hop]; rfl), reads_of_join (by rw [s.op_join]; rfl), s.inputs_join,
    columnsOf, columnsOf]
  exact flatMap_congr fun i hi => by
    rw [s.columnCount_eq i (s.unambiguous.arranged.mem_of_input s.join_live hi)]

/-- The filter saw what the join sees, and still does if it stays. -/
theorem scope_id : p.columnsOf (p.reads id) = p.columnsOf (p.reads join) := by
  rw [reads_over_join s.op_id s.inputs_id s.op_join]

/-- A filter that stays sees what the join sees. -/
theorem scope_kept (hx : id ∈ q.order) :
    q.columnsOf (q.reads id) = p.columnsOf (p.reads join) := by
  obtain ⟨e, hnode, -⟩ := s.node_id ((s.mem_order.mp hx).2 rfl)
  obtain ⟨c, hnodeJoin, -⟩ := s.node_join
  have hop : q.op id = .filter e := congrArg Node.op hnode
  have hinputs : q.inputs id = [join] := (congrArg Node.inputs hnode).trans s.inputs_id
  rw [reads_over_join hop hinputs (congrArg Node.op hnodeJoin), s.scope_join]

theorem op_other (hx : x ∈ q.order) (hxid : x ≠ id) (hxjoin : x ≠ join) :
    q.op x = (p.op x).mapExprs (Expr.mapColumns (p.repositioned q x x)) :=
  congrArg Node.op (s.node_other x (s.mem_order.mp hx).1 hxid hxjoin)

/-- Nothing changes in a node but what it reads and refers to. -/
theorem node_eq (hx : x ∈ q.order) :
    q.node x = { p.node x with inputs := q.inputs x, op := q.op x } := by
  obtain ⟨hxp, hgone⟩ := s.mem_order.mp hx
  have hnode : ∃ inputs op, q.node x = { p.node x with inputs := inputs, op := op } := by
    by_cases hxid : x = id
    · obtain ⟨g, hnode, -⟩ := s.node_id (hgone hxid)
      exact ⟨_, _, hxid ▸ hnode⟩
    by_cases hxjoin : x = join
    · obtain ⟨c, hnode, -⟩ := s.node_join
      exact ⟨_, _, hxjoin ▸ hnode⟩
    · exact ⟨_, _, s.node_other x hxp hxid hxjoin⟩
  obtain ⟨inputs, op, hnode⟩ := hnode
  rw [Plan.inputs, Plan.op, hnode]

/-! ### Uses -/

/-- Every node but the join is used as often as before. -/
theorem useCount_eq (hx : x ∈ q.order) (hxjoin : x ≠ join) : q.useCount x = p.useCount x := by
  have hkept : ∀ n ∈ q.order, (q.node n).uses x = (p.node n).uses x := by
    intro n hn
    change (q.inputs n).count x = (p.inputs n).count x
    rw [s.inputs_eq hn, stepTop]
    split
    · next hgone =>
      have hxid : x ≠ id := fun heq => by simp [(s.mem_order.mp hx).2 heq] at hgone
      rw [count_eq_countP, count_eq_countP, countP_map]
      refine countP_congr fun i _ => ?_
      by_cases hi : i = id
      · simp [hi, NodeId.replaced_self, Ne.symm hxid, Ne.symm hxjoin]
      · simp [NodeId.replaced_of_ne join hi]
    · rw [map_id']
  have hnone : (p.node id).uses x = 0 := by
    change (p.inputs id).count x = 0
    rw [s.inputs_id, count_eq_zero]
    simpa using hxjoin
  rw [useCount, useCount, map_congr_left hkept]
  cases hgone : p.isUsedUp id with
  | false =>
      have horder : q.order = p.order := by simp [s.order_eq, hgone]
      rw [horder]
  | true =>
      -- The filter that leaves used nothing but the join.
      have horder : q.order = p.order.erase id := by
        rw [s.order_eq, s.unambiguous.nodup.erase_eq_filter]
        exact filter_congr fun n _ => by simp [hgone, bne]
      rw [horder, ← sum_map_erase _ s.live, hnone, Nat.zero_add]

/-! ### Rows -/

variable {V : Type} [DecidableEq V] {M : Meaning V}

/-- The join has the rows of the product for which the conjuncts are true that it was handed. -/
theorem rows_join (hM : M.Logical) : M.node (q.op join) (q.columnsOf (q.reads join))
    ((q.inputs join).map q.columnCount) ((q.inputs join).map (p.rows M)) =
      (p.rows M join).filter fun row => (f.condition.conjuncts.filter (p.crosses join)).all
        (M.holds (M.env (p.columnsOf (p.reads join)) row)) := by
  have h := s.unambiguous.arranged
  obtain ⟨c, hnode, hconjuncts⟩ := s.node_join
  obtain ⟨htrue, hkind⟩ := s.isTrue
  obtain ⟨left, right, hsides⟩ := h.sides_of_join s.join_live s.op_join
  have hproduct : (fun row => M.holds (M.env (p.columnsOf (p.reads join)) row) j.condition) =
      fun _ => true := by
    funext row
    rw [Meaning.holds, hM.truthAt_true _ htrue, beq_self_eq_true]
  have hop : q.op join = .join { j with condition := c } := congrArg Node.op hnode
  rw [s.columnCounts_eq s.join_mem_order, s.inputs_join, s.scope_join,
    h.toOrdered.rows_eq s.join_live, hop, s.op_join, hsides]
  simp only [map_cons, map_nil, Meaning.node, hkind, hproduct]
  rw [Meaning.joined_inner]
  simp only [hM.conjoins.holds_eq_all, hconjuncts]

/-- The filter has the rows of the product for which its conjuncts are true. -/
theorem rows_id (hM : M.Logical) : p.rows M id = (p.rows M join).filter fun row =>
    f.condition.conjuncts.all (M.holds (M.env (p.columnsOf (p.reads join)) row)) := by
  rw [s.unambiguous.arranged.toOrdered.rows_eq s.live, s.inputs_id, s.op_id, s.scope_id]
  simp only [map_singleton, Meaning.node, headD_cons, Meaning.filtered,
    hM.conjoins.holds_eq_all]

/-- The rows after a step: only the join has other ones. -/
theorem node_eq_rows (hM : M.Logical) {g : NodeId → Rows V}
    (hjoin : g join = (p.rows M join).filter fun row =>
      (f.condition.conjuncts.filter (p.crosses join)).all
        (M.holds (M.env (p.columnsOf (p.reads join)) row)))
    (hother : ∀ x, x ≠ join → g x = p.rows M x) (hx : x ∈ q.order) :
    g x = M.node (q.op x) (q.columnsOf (q.reads x)) ((q.inputs x).map q.columnCount)
      ((q.inputs x).map g) := by
  have h := s.unambiguous.arranged
  have hxp := (s.mem_order.mp hx).1
  by_cases hxjoin : x = join
  · subst hxjoin
    have hinputs : (q.inputs x).map g = (q.inputs x).map (p.rows M) := by
      refine map_congr_left fun i hi => hother i ?_
      rintro rfl
      exact h.not_mem_inputs_self s.join_live (s.inputs_join ▸ hi)
    rw [hinputs, s.rows_join hM, hjoin]
  rw [hother x hxjoin]
  by_cases hxid : x = id
  · subst hxid
    -- The filter stays, over a join that has fewer rows.
    obtain ⟨e, hnode, hconjuncts⟩ := s.node_id ((s.mem_order.mp hx).2 rfl)
    have hop : q.op x = .filter e := congrArg Node.op hnode
    have hinputs : q.inputs x = [join] :=
      (congrArg Node.inputs hnode).trans s.inputs_id
    rw [s.rows_id hM, s.scope_kept hx, hop, hinputs]
    simp only [map_singleton, Meaning.node, headD_cons, Meaning.filtered, hjoin, filter_filter,
      hM.conjoins.holds_eq_all, hconjuncts]
    refine filter_congr fun row _ => ?_
    rw [Bool.eq_iff_iff]
    simp only [all_eq_true, Bool.and_eq_true, mem_filter, Bool.not_eq_true']
    grind
  · have hnode := s.node_other x hxp hxid hxjoin
    have hop : q.op x = (p.op x).mapExprs (Expr.mapColumns (p.repositioned q x x)) :=
      congrArg Node.op hnode
    have hinputs : (q.inputs x).map g = (p.inputs x).map (p.rows M) := by
      rw [s.inputs_eq hx, map_map]
      refine map_congr_left fun i hi => ?_
      have hijoin : i ≠ join := fun heq => s.not_mem_inputs hxp hxid (heq ▸ hi)
      by_cases hiid : i = id
      · rw [Function.comp_apply, stepTop, hiid]
        split
        · next hgone =>
          -- All conjuncts went to the join, which is read now.
          rw [isUsedUp_of_site s.op_id s.site, all_eq_true] at hgone
          rw [NodeId.replaced_self, hjoin, s.rows_id hM, filter_eq_self.mpr hgone]
        · exact hother id s.join_ne.symm
      · rw [Function.comp_apply, stepTop_of_ne hiid, hother i hijoin]
    rw [hinputs, s.columnCounts_eq hx, hop, h.toOrdered.rows_eq hxp]
    refine (Meaning.node_mapColumns (fun c hc => ?_) _ _).symm
    refine idxOf_repositioned (s.idxOf_lt hx hc) (s.unambiguous_hoisted.nodup_reads hx
      (c := p.repositioned q x x c) ?_)
    rw [hop, Operator.columns_mapExprs]
    exact mem_map_of_mem hc

/-- Every node that stays, the join excepted, has the rows it had. -/
theorem rows_eq (hM : M.Logical) (hx : x ∈ q.order) (hxjoin : x ≠ join) :
    q.rows M x = p.rows M x := by
  have hrows := s.unambiguous_hoisted.arranged.toOrdered.rows_unique fun x hx =>
    s.node_eq_rows hM (Function.update_self join _ (p.rows M))
      (fun x hx => Function.update_of_ne hx _ (p.rows M)) hx
  exact (hrows x hx).trans (Function.update_of_ne hxjoin _ _)

end Hoisted

end Plan

end QueryPlan
