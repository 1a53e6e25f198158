import QueryPlan.Proofs.Numbering.Documents
import QueryPlan.Proofs.Scope.Binding
/-!
# QueryPlan.Proofs.Scope.Entries

**Which node an entry of a plan document becomes.** Reading an entry adds a node at the place that the
entry claims. It leaves the nodes before it where they are, except that a projection may get a mark
(`Plan.Continues`), so what is found about a plan when an entry is read is still true of the plan
that the document is read to (`Plan.ofDocument_entry`).
-/

namespace QueryPlan

open List

namespace Plan

variable {p q r : Plan} {id : NodeId}

/-- A plan goes on as another one: its nodes keep their places, what they read and how wide they
are, a table function stays what it is, and further nodes stand behind them. -/
structure Continues (p q : Plan) : Prop where
  size_le : p.arena.size ≤ q.arena.size
  order_prefix : p.order <+: q.order
  inputs_eq : ∀ id ∈ p.order, q.inputs id = p.inputs id
  layout_eq : ∀ id ∈ p.order, (q.op id).layout = (p.op id).layout
  tableFunction : ∀ id ∈ p.order, ∀ t, p.op id = .tableFunction t → q.op id = .tableFunction t

namespace Continues

theorem refl (p : Plan) : p.Continues p :=
  ⟨Nat.le_refl _, prefix_rfl, fun _ _ => rfl, fun _ _ => rfl, fun _ _ _ h => h⟩

theorem trans (h : p.Continues q) (h' : q.Continues r) : p.Continues r where
  size_le := Nat.le_trans h.size_le h'.size_le
  order_prefix := h.order_prefix.trans h'.order_prefix
  inputs_eq id hid := (h'.inputs_eq id (h.order_prefix.subset hid)).trans (h.inputs_eq id hid)
  layout_eq id hid := (h'.layout_eq id (h.order_prefix.subset hid)).trans (h.layout_eq id hid)
  tableFunction id hid t ht :=
    h'.tableFunction id (h.order_prefix.subset hid) t (h.tableFunction id hid t ht)

theorem columnCount_eq (h : p.Continues q) (hp : p.Ordered p.order) (hid : id ∈ p.order) :
    q.columnCount id = p.columnCount id :=
  hp.columnCount_congr h.size_le h.layout_eq h.inputs_eq id hid

theorem getElem?_order (h : p.Continues q) {place : Nat} (hid : p.order[place]? = some id) :
    q.order[place]? = some id := by
  obtain ⟨rest, hrest⟩ := h.order_prefix
  rw [← hrest, getElem?_append_left (List.getElem?_eq_some_iff.mp hid).1, hid]

/-- A further node. -/
theorem push (hp : p.Ordered p.order) (n : Node) : p.Continues (p.push n) where
  size_le := by
    change p.arena.size ≤ (p.alloc n).arena.size
    rw [size_alloc]
    exact Nat.le_succ _
  order_prefix := prefix_append _ _
  inputs_eq id hid := inputs_congr (node_alloc_of_ne n (ne_nextId (hp.inArena id hid)))
  layout_eq id hid :=
    congrArg Operator.layout (op_congr (node_alloc_of_ne n (ne_nextId (hp.inArena id hid))))
  tableFunction id hid t ht :=
    (op_congr (node_alloc_of_ne n (ne_nextId (hp.inArena id hid)))).trans ht

/-- A mark for a projection. -/
theorem setOp_project {j k : Project} (hop : p.op id = .project j)
    (hexprs : k.exprs = j.exprs) (hfields : k.fields = j.fields) :
    p.Continues (p.setOp id (.project k)) := by
  have hid : id.index < p.arena.size := lt_size_of_op_ne (by rw [hop]; nofun)
  have hlayout : (Operator.project k).layout = (p.op id).layout := by
    rw [hop]
    simp only [Operator.layout, hexprs, hfields]
  have hshape : SameShape p (p.setOp id (.project k)) := .setOp hid hlayout (by rw [hop]; rfl)
  refine ⟨hshape.size_eq.ge, prefix_rfl, fun x _ => hshape.inputs_eq x,
    fun x _ => hshape.layout_eq x, fun x _ t ht => ?_⟩
  have hne : x ≠ id := by
    rintro rfl
    cases hop.symm.trans ht
  exact (op_congr (node_setOp_of_ne _ hne)).trans ht

end Continues

end Plan

namespace Relation

variable {env : Environment} {read : Json → Build Expr} {p q r : Plan} {j : Json}
  {s s' : BuildState} {inputs : List NodeId} {op : Operator}

theorem markTarget_continues {operation : ModifyOperation} {target : ModifyTarget}
    (h : markTarget p operation target inputs = .ok q) : p.Continues q ∧ q.order = p.order := by
  obtain ⟨id, -, h⟩ := Result.bind_eq_ok.mp h
  split at h
  · next k hop =>
    obtain rfl := Result.pure_eq_ok.mp h
    exact ⟨.setOp_project hop rfl rfl, rfl⟩
  · cases h

theorem nodeOf_continues (env : Environment) (read : Json → Build Expr) (p : Plan) (j : Json) :
    (nodeOf env read p j).Gives fun r => p.Continues r.1 ∧ r.1.order = p.order := by
  have hkept : ∀ inputs ⊆ p.order, ∀ r, modify env p inputs j = .ok r →
      (p.Continues r.1 ∧ r.1.order = p.order) ∧ True := by
    intro inputs _ r hr
    refine ⟨?_, trivial⟩
    rcases (modify_eq_ok hr).2 with hplan | ⟨operation, target, hmark⟩
    · rw [hplan]
      exact ⟨.refl p, rfl⟩
    · exact markTarget_continues hmark
  have hany : OperatorsGive env read p j fun _ => True :=
    { scan := fun _ _ => trivial
      materializedScan := fun _ _ => trivial
      project := fun _ _ _ _ => trivial
      filter := fun _ _ _ _ => trivial
      aggregate := fun _ _ => trivial
      join := fun _ _ _ _ => trivial
      sort := fun _ _ => trivial
      values := fun _ _ => trivial
      tableFunction := fun _ _ _ _ => trivial
      union := fun _ _ => trivial }
  intro s r s' hrun
  exact (nodeOf_gives (Q := fun q => p.Continues q ∧ q.order = p.order) ⟨.refl p, rfl⟩ hany hkept
    s r s' hrun).1

/-- An entry claims the next place, and its node gets there. -/
theorem addNode_eq_ok (h : addNode env read p j s = .ok (q, s')) :
    ∃ r inputs op buildId t, idOf j = .ok p.order.length ∧
      nodeOf env read p j s = .ok ((r, inputs, op), t) ∧
      op.arity.admits inputs.length = true ∧ q = r.push (.make buildId inputs op) := by
  unfold addNode at h
  obtain ⟨id, hid, h⟩ := Build.bind_lift_eq_ok.mp h
  obtain ⟨_, hplace, h⟩ := Build.bind_lift_eq_ok.mp h
  obtain ⟨⟨r, inputs, op⟩, t, hnode, h⟩ := Build.bind_eq_ok.mp h
  obtain ⟨buildId, _, -, h⟩ := Build.bind_eq_ok.mp h
  obtain ⟨_, hcheck, h⟩ := Build.bind_lift_eq_ok.mp h
  obtain ⟨rfl, -⟩ := Build.pure_eq_ok.mp h
  obtain rfl := beq_iff_eq.mp (Result.ensure_eq_ok.mp hplace)
  exact ⟨r, inputs, op, buildId, t, hid, hnode,
    Result.ensure_eq_ok.mp (Result.within_eq_ok.mp hcheck), rfl⟩

theorem addNode_continues (hread : ∀ j, (read j).Gives Expr.Columnless) (hp : p.Unbound)
    (j : Json) : (addNode env read p j).Gives fun q => q.Unbound ∧ p.Continues q := by
  intro s q s' h
  obtain ⟨r, inputs, op, buildId, t, -, hnode, -, rfl⟩ := addNode_eq_ok h
  obtain ⟨hr, -⟩ := nodeOf_continues env read p j s _ t hnode
  obtain ⟨⟨hunbound, -⟩, -⟩ := nodeOf_unbound hread hp j s _ t hnode
  exact ⟨addNode_unbound hread hp j s _ s' h, hr.trans (.push hunbound.arranged.toOrdered _)⟩

/-- The entry of a table function changes no other node. -/
theorem nodeOf_tableFunction
    (hkind : (j.member "relOp").toText? = some "LogicalTableFunctionScan")
    (h : nodeOf env read p j s = .ok ((r, inputs, op), s')) :
    r = p ∧ inputsOf p j = .ok inputs ∧ tableFunction read p j s = .ok (op, s') := by
  unfold nodeOf at h
  obtain ⟨relOp, hrelOp, h⟩ := Build.bind_lift_eq_ok.mp h
  obtain ⟨name, hname, h⟩ := Build.bind_lift_eq_ok.mp h
  rw [Json.member_of_field hrelOp, Result.ofOption_eq_ok.mp hname] at hkind
  obtain rfl := Option.some.inj hkind
  obtain ⟨is, hinputs, h⟩ := Build.bind_lift_eq_ok.mp h
  obtain ⟨o, _, hop, h⟩ := Build.bind_eq_ok.mp h
  obtain ⟨hr, rfl⟩ := Build.pure_eq_ok.mp h
  obtain ⟨rfl, hrest⟩ := Prod.mk.inj hr
  obtain ⟨rfl, rfl⟩ := Prod.mk.inj hrest
  exact ⟨rfl, hinputs, hop⟩

end Relation

namespace Plan

variable {env : Environment} {nested : Expr.PlanBuilder} {p : Plan} {s s' : BuildState}

/-- Every entry of a document is read into a plan that goes on as the plan of the document. -/
theorem ofDocument_entry {rels entry : Json}
    (h : ofDocument env (Expr.ofDocument nested) rels s = .ok (p, s'))
    (hentry : entry ∈ rels.elements) :
    p.Unbound ∧ ∃ q r t t', q.Unbound ∧ q.Continues r ∧ r.Continues p ∧
      Relation.addNode env (Expr.ofDocument nested) q entry t = .ok (r, t') := by
  have hread := Expr.ofDocument_columns nested
  have hloop : ∀ (ks : List Json) (q : Plan), q.Unbound →
      (ks.foldlM (Relation.addNode env (Expr.ofDocument nested)) q).Gives
        fun r => r.Unbound ∧ q.Continues r := fun ks q hq =>
    .foldlM ⟨hq, .refl q⟩ fun k _ r hr s u s' hu =>
      ⟨(Relation.addNode_continues hread hr.1 k s u s' hu).1,
        hr.2.trans (Relation.addNode_continues hread hr.1 k s u s' hu).2⟩
  unfold ofDocument at h
  obtain ⟨entries, hentries, h⟩ := Build.bind_lift_eq_ok.mp h
  rw [Json.elements_of_asList hentries] at hentry
  obtain ⟨pre, post, rfl⟩ := append_of_mem hentry
  obtain ⟨q, t, r, t', hpre, hadd, hpost⟩ := Build.foldlM_split.mp h
  have hempty : Plan.empty.Unbound := ⟨⟨⟨.nil, nofun, nofun⟩, nofun⟩, nofun⟩
  obtain ⟨hq, -⟩ := hloop pre .empty hempty s q t hpre
  obtain ⟨hr, hqr⟩ := Relation.addNode_continues hread hq entry t r t' hadd
  obtain ⟨hp, hrp⟩ := hloop post r hr t' p s' hpost
  exact ⟨hp, q, r, t, t', hq, hqr, hrp, hadd⟩

end Plan

end QueryPlan
