import QueryPlan.Proofs.Marks.Groupings
import QueryPlan.Proofs.Meaning.Rows
import QueryPlan.Proofs.Numbering.Pipeline
/-!
# QueryPlan.Proofs.Marks.Nops

**A grouping that is marked has nothing to do.** No node is marked when a plan is read and bound, so
the marks of an optimized plan are those that the passes set, and each of them is on a grouping over
a grouping by the same keys (`nop_marks_hold`). To group rows once more by all of their columns
changes nothing, so such a node has the rows of its input (`Plan.Ordered.rows_of_groupsBy`).
-/

namespace QueryPlan

open List Plan

/-! ### What is read -/

/-- No node is marked. -/
def Plan.Unmarked (p : Plan) : Prop := ∀ id, (p.op id).isNop = false

theorem Plan.Unmarked.setOp {p : Plan} (hp : p.Unmarked) (id : NodeId) {op : Operator}
    (hop : op.isNop = false) : (p.setOp id op).Unmarked := by
  intro x
  by_cases hin : id.index < p.arena.size
  · by_cases hx : x = id
    · rwa [hx, op_setOp_self _ hin]
    · rw [op_congr (node_setOp_of_ne _ hx)]
      exact hp x
  · rw [Plan.setOp, modify_of_size_le _ (Nat.le_of_not_lt hin)]
    exact hp x

namespace Relation

variable {env : Environment} {read : Json → Build Expr} {p q : Plan} {j : Json}

theorem markTarget_unmarked (hp : p.Unmarked) {inputs : List NodeId}
    {operation : ModifyOperation} {target : ModifyTarget}
    (h : markTarget p operation target inputs = .ok q) : q.Unmarked := by
  obtain ⟨id, -, h⟩ := Result.bind_eq_ok.mp h
  split at h
  · exact Result.pure_eq_ok.mp h ▸ hp.setOp id rfl
  · cases h

theorem modify_unmarked (hp : p.Unmarked) {inputs : List NodeId} {r : Plan × Operator}
    (h : modify env p inputs j = .ok r) : r.1.Unmarked ∧ r.2.isNop = false := by
  obtain ⟨⟨m, hop⟩, hplan⟩ := modify_eq_ok h
  refine ⟨?_, by rw [hop]; rfl⟩
  rcases hplan with hplan | ⟨operation, target, hmark⟩
  · rwa [hplan]
  · exact markTarget_unmarked hp hmark

theorem operators_isNop (read : Json → Build Expr) (p : Plan) (j : Json) :
    OperatorsGive env read p j fun op => op.isNop = false where
  scan _ h := by
    obtain ⟨s, rfl⟩ := scan_eq_ok h
    rfl
  materializedScan _ h := by
    obtain ⟨s, rfl⟩ := materializedScan_eq_ok h
    rfl
  project := .skip fun _ => .skip fun _ => .skip fun _ => .skip fun _ => .skip fun _ =>
    .skip fun _ => .pure rfl
  filter := .skip fun _ => .skip fun _ => .pure rfl
  aggregate _ h := by
    obtain ⟨a, rfl, -, hnop⟩ := aggregate_eq_ok h
    exact hnop
  join := .skip fun _ => .skip fun _ => .skip fun _ => .skip fun _ => .skip fun _ => .pure rfl
  sort _ h := by
    obtain ⟨s, rfl⟩ := sort_eq_ok h
    rfl
  values _ h := by
    obtain ⟨v, rfl⟩ := values_eq_ok h
    rfl
  tableFunction := .skip fun _ => .skip fun _ => .skip fun _ => .skip fun _ => .skip fun _ =>
    .skip fun _ => .skip fun _ => .skip fun _ => .pure rfl
  union _ h := by
    obtain ⟨u, rfl⟩ := union_eq_ok h
    rfl

theorem addNode_unmarked (hp : p.Unmarked) (j : Json) :
    (addNode env read p j).Gives Plan.Unmarked := by
  unfold addNode
  refine .skip fun _ => .skip fun _ => .bind (nodeOf_gives hp (operators_isNop read p j)
    fun _ _ _ h => modify_unmarked hp h) fun r hr => ?_
  refine .skip fun buildId => .skip fun _ => .pure fun x => ?_
  change ((r.1.alloc (.make buildId r.2.1 r.2.2)).node x).op.isNop = false
  rw [Plan.node_alloc]
  split
  · exact hr.2.2
  · exact hr.1 x

end Relation

/-- Binding changes expressions only. -/
theorem Operator.isNop_bindM {op op' : Operator} {output : List ColumnRef} {s s' : Option Nat}
    (h : (op.bindM output).run s = (op', s')) : op'.isNop = op.isNop := by
  cases op <;> obtain ⟨rfl, -⟩ := Prod.mk.inj h <;> rfl

/-- The bound plan of a document has no marks. -/
theorem Plan.boundOfDocument_unmarked (env : Environment) (nested : Expr.PlanBuilder) (j : Json) :
    (boundOfDocument env nested j).Gives Plan.Unmarked := by
  unfold boundOfDocument
  refine .skip fun _ => .bind (.skip fun _ => .foldlM (fun _ => rfl) fun k _ p hp =>
    Relation.addNode_unmarked hp k) fun p hp => .skip fun _ => .lift fun q hq => ?_
  refine Result.foldlM_keeps (motive := Plan.Unmarked) hq hp fun id _ r s hr hstep => ?_
  obtain ⟨-, rfl⟩ | ⟨output, op, -, hrun, rfl⟩ := bindNode_eq_ok_iff.mp hstep
  · exact hr
  · exact hr.setOp id ((Operator.isNop_bindM hrun).trans (hr id))

/-! ### What grouping twice gives -/

theorem eraseDups_of_nodup {α : Type} [BEq α] [LawfulBEq α] {as : List α} (h : as.Nodup) :
    as.eraseDups = as := by
  induction as with
  | nil => rfl
  | cons a as ih =>
      obtain ⟨ha, has⟩ := nodup_cons.mp h
      have hkept : as.filter (fun b => !b == a) = as := by
        refine filter_eq_self.mpr fun b hb => ?_
        simpa using ne_of_mem_of_not_mem hb ha
      rw [eraseDups_cons, hkept, ih has]

namespace Meaning

variable {V : Type} {M : Meaning V} {count : Nat} {rows : Rows V}

theorem fit_fit (M : Meaning V) (count : Nat) (row : List V) :
    M.fit count (M.fit count row) = M.fit count row := by
  refine map_congr_left fun i hi => ?_
  have hlt := mem_range.mp hi
  simp [cell, fit, hlt]

/-- The target of a supplied value is the key that it counts. -/
theorem target_of_supplied {c : Compound} {t : CompoundTarget} {k : Nat}
    (ht : c.targets[k]? = some t) (h : c.targetSource? k = some (.supplied (k + 1)))
    (key : List V) : M.target c key rows t = M.cell key k := by
  rw [Compound.targetSource?, ht] at h
  cases t with
  | source i =>
      dsimp only at h
      rw [target, h]
      rfl
  | call i => cases h

variable [DecidableEq V]

/-- The keys of the groups of some rows. -/
def keyRows (M : Meaning V) (count : Nat) (rows : Rows V) : Rows V :=
  (M.groups count rows).map fun group => M.fit count group.1

theorem keyRows_of_ne_zero (hcount : count ≠ 0) :
    M.keyRows count rows = (rows.map (M.fit count)).eraseDups := by
  rw [keyRows, groups, if_neg hcount, map_map]
  refine (map_congr_left fun key hkey => ?_).trans (map_id _)
  obtain ⟨row, -, rfl⟩ := mem_map.mp (mem_eraseDups.mp hkey)
  exact fit_fit M count row

/-- To group keys once more changes nothing. -/
theorem keyRows_keyRows (M : Meaning V) (count : Nat) (rows : Rows V) :
    M.keyRows count (M.keyRows count rows) = M.keyRows count rows := by
  by_cases hcount : count = 0
  · subst hcount
    rfl
  · have hkeys : (M.keyRows count rows).map (M.fit count) = M.keyRows count rows := by
      refine (map_congr_left fun key hkey => ?_).trans (map_id _)
      obtain ⟨group, -, rfl⟩ := mem_map.mp hkey
      exact fit_fit M count group.1
    rw [keyRows_of_ne_zero hcount, hkeys, keyRows_of_ne_zero hcount]
    exact eraseDups_of_nodup (nodup_eraseDups _)

theorem node_aggregate {a : Aggregate} (hcalls : a.calls = []) (scope : List ColumnRef)
    (widths : List Nat) (inputs : List (Rows V)) :
    M.node (.aggregate a) scope widths inputs = M.keyRows a.groupCount (inputs.headD []) := by
  simp [node, keyRows, hcalls]

/-- What groups by keys alone gives the keys. -/
theorem node_groupsBy {op : Operator} {keys : Nat} (h : op.GroupsBy keys) (scope : List ColumnRef)
    (widths : List Nat) (inputs : List (Rows V)) :
    ∃ rows, M.node op scope widths inputs = M.keyRows keys rows := by
  cases op with
  | aggregate a =>
      obtain ⟨hcalls, rfl⟩ := h
      exact ⟨_, node_aggregate hcalls scope widths inputs⟩
  | compound c =>
      obtain ⟨haggregate, -, rfl, hlength, htargets⟩ := h
      refine ⟨M.sources scope c (inputs.headD []), ?_⟩
      rw [node, compounded, if_pos haggregate, keyRows]
      refine map_congr_left fun entry _ => ?_
      obtain ⟨key, group⟩ := entry
      refine List.ext_getElem (by simp [fit, hlength]) fun k hk hk' => ?_
      have hsource := htargets k (by simpa [hlength] using hk)
      rw [getElem_map, target_of_supplied (List.getElem?_eq_getElem _) hsource]
      simp [fit]
  | _ => cases h

end Meaning

/-- A grouping over a grouping by the same keys has the rows of its input. -/
theorem Plan.Ordered.rows_of_groupsBy {V : Type} [DecidableEq V] {p : Plan} {l : List NodeId}
    {n i : NodeId} {a : Aggregate} (hp : p.Ordered l) (hn : n ∈ l) (hop : p.op n = .aggregate a)
    (hcalls : a.calls = []) (hinputs : p.inputs n = [i]) (hi : (p.op i).GroupsBy a.groupCount)
    (M : Meaning V) : p.rows M n = p.rows M i := by
  have hlive := hp.mem_of_input hn (hinputs ▸ mem_singleton_self i)
  obtain ⟨rows, hrows⟩ := Meaning.node_groupsBy (M := M) hi (p.columnsOf (p.reads i))
    ((p.inputs i).map p.columnCount) ((p.inputs i).map (p.rows M))
  have hbelow : p.rows M i = M.keyRows a.groupCount rows := (hp.rows_eq hlive).trans hrows
  rw [hp.rows_eq hn, hop, hinputs, Meaning.node_aggregate hcalls, map_singleton, hbelow]
  exact Meaning.keyRows_keyRows M a.groupCount rows

/-- **Marks stay true.** Every live grouping that is marked in an optimized plan, be it that of a
subquery, gives nothing but keys and reads a grouping by the same keys: an aggregate or a compound
whose targets are the keys in order. Its rows are those of its input. -/
theorem nop_marks_hold {env : Environment} {j : Json} {query : Query}
    (h : Query.ofDocument env j = .ok query) :
    ∀ p ∈ query.plans, ∀ n ∈ p.order, ∀ a, p.op n = .aggregate a →
      a.isNop = true → a.calls = [] ∧ ∃ i ∈ p.order, p.inputs n = [i] ∧
        (p.op i).GroupsBy a.groupCount ∧
        ∀ (V : Type) [DecidableEq V] (M : Meaning V), p.rows M n = p.rows M i := by
  intro p hp n hn a hop hnop
  obtain ⟨d, s, bound, t, next, hbound, hoptimize⟩ := Query.optimized h p hp
  have hunmarked := boundOfDocument_unmarked _ _ d s bound t hbound
  have hordered := (boundOfDocument_wellFormed _ _ d s bound t hbound).1.arranged.toOrdered
  have hnops : p.NopsRegroup := hordered.optimize_induct
    (fun m _ hm => absurd hm (by rw [hunmarked m]; exact Bool.false_ne_true))
    (fun _ _ _ _ _ hr hnops hs => hnops.apply hr hs) hoptimize
  obtain ⟨keys, i, hgroups, hinputs, hi⟩ := hnops n hn (by rw [hop]; exact hnop)
  rw [hop] at hgroups
  obtain ⟨hcalls, rfl⟩ := hgroups
  have hpOrdered := hordered.optimize hoptimize
  exact ⟨hcalls, i, hpOrdered.mem_of_input hn (hinputs ▸ mem_singleton_self i), hinputs, hi,
    fun V _ M => hpOrdered.rows_of_groupsBy hn hop hcalls hinputs hi M⟩

/-- A grouping over a grouping over a projection. -/
def regroupedRows : Json :=
  let grouping (id : Int) : Json := .object [("id", .integer id), ("relOp", .string "LogicalAggregate"),
    ("fields", .array [.string "b"]), ("group", .array [.integer 0]), ("aggs", .array [])]
  .object [("rels", .array
    [rowsOfA,
      .object [("id", .integer 1), ("relOp", .string "LogicalProject"),
        ("exprs", .array [.object [("input", .integer 0)]]), ("fields", .array [.string "b"])],
      grouping 2, grouping 3])]

/-- Whether a marked grouping by some keys reads a compound. -/
def Plan.marksOver (p : Plan) (n i : NodeId) (keys : Nat) : Bool :=
  match p.op n, p.op i with
  | .aggregate a, .compound _ => a.isNop && a.groupCount == keys && p.inputs n == [i]
  | _, _ => false

theorem Plan.marksOver_eq_true {p : Plan} {n i : NodeId} {keys : Nat}
    (h : p.marksOver n i keys = true) : ∃ a c, p.op n = .aggregate a ∧ p.op i = .compound c ∧
      a.isNop = true ∧ a.groupCount = keys ∧ p.inputs n = [i] := by
  unfold marksOver at h
  split at h
  · next a c hop hcompound =>
    simp only [Bool.and_eq_true, beq_iff_eq] at h
    exact ⟨a, c, hop, hcompound, h.1.1, h.1.2, h.2⟩
  · cases h

/-- The lower grouping goes into a compound, and the upper one is marked and reads it. -/
theorem nop_marks_hold_regroupedRows :
    ∃ query a i c, Query.ofDocument unchecked regroupedRows = .ok query ∧
      query.plan.op ⟨3⟩ = .aggregate a ∧ a.isNop = true ∧
      query.plan.inputs ⟨3⟩ = [i] ∧ query.plan.op i = .compound c ∧
      (Operator.compound c).GroupsBy 1 ∧
      query.plan.rows Meaning.ofTruthValues ⟨3⟩ = query.plan.rows Meaning.ofTruthValues i := by
  have hrun : (Query.ofDocument unchecked regroupedRows).holds (fun query =>
      query.plan.order.contains ⟨3⟩ && query.plan.marksOver ⟨3⟩ ⟨4⟩ 1) = true := by
    decide +kernel
  obtain ⟨query, hquery, hmark⟩ := Result.holds_eq_true.mp hrun
  rw [Bool.and_eq_true, contains_iff_mem] at hmark
  obtain ⟨hlive, hmark⟩ := hmark
  obtain ⟨a, c, hop, hcompound, hnop, hcount, hinputs⟩ := Plan.marksOver_eq_true hmark
  obtain ⟨-, i, -, hread, hgroups, hrows⟩ :=
    nop_marks_hold hquery _ mem_cons_self ⟨3⟩ hlive a hop hnop
  obtain rfl := (cons.inj (hinputs.symm.trans hread)).1
  rw [hcompound, hcount] at hgroups
  exact ⟨query, a, ⟨4⟩, c, hquery, hop, hnop, hread, hcompound, hgroups,
    hrows _ Meaning.ofTruthValues⟩

end QueryPlan
