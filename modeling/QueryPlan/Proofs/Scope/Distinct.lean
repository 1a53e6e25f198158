import QueryPlan.Proofs.Query
import QueryPlan.Proofs.Scope.Positions
/-!
# QueryPlan.Proofs.Scope.Distinct

**When different positions name different columns.** A join shows the columns of its inputs under
the handles of the inputs, and a document may list one node as both inputs of a join. Such a join
shows every column twice (`Plan.JoinsWithItself`), and two positions of an expression that is
bound against it name one column. No other node of a plan that is read shows a column twice
(`Plan.Arranged.nodup_exposed_iff`).
-/

namespace QueryPlan

open List

namespace Plan

variable {p : Plan} {l : List NodeId} {id : NodeId}

/-- A node that joins another one, which has columns, with itself. -/
def JoinsWithItself (p : Plan) (id : NodeId) : Prop :=
  (p.op id).isJoin = true ∧
    ∃ i width, p.inputs id = [i, i] ∧ p.width i = .ok width ∧ 0 < width

/-- Of two nodes all columns are different, unless they are one node that has columns. -/
theorem nodup_columnsOf_pair {left right : NodeId} :
    (p.columnsOf [left, right]).Nodup ↔ ¬(left = right ∧ 0 < p.columnCount left) := by
  constructor
  · rintro hnodup ⟨rfl, hpos⟩
    rw [columnsOf_cons] at hnodup
    have hfirst : (⟨left, 0⟩ : ColumnRef) ∈ ColumnRef.range left (p.columnCount left) :=
      ColumnRef.mem_range.mpr ⟨rfl, hpos⟩
    have hsecond : (⟨left, 0⟩ : ColumnRef) ∈ p.columnsOf [left] :=
      mem_columnsOf.mpr ⟨mem_singleton_self _, hpos⟩
    exact (nodup_append.mp hnodup).2.2 _ hfirst _ hsecond rfl
  · intro hnot
    by_cases heq : left = right
    · -- The node has no columns at all.
      subst heq
      have hnone : p.columnCount left = 0 := by
        have := not_and.mp hnot rfl
        omega
      have hlength : (p.columnsOf [left, left]).length = 0 := by
        simp [length_columnsOf, hnone]
      rw [length_eq_zero_iff.mp hlength]
      exact nodup_nil
    · exact nodup_columnsOf (by simpa using heq)

/-- A node shows different columns, unless it joins a node with itself. -/
theorem Arranged.nodup_exposed_iff (h : p.Arranged l) (hid : id ∈ l)
    (hpair : (p.op id).isJoin = true → (p.op id).arity = .exactly 2) :
    (p.columnsOf (p.exposed id)).Nodup ↔ ¬p.JoinsWithItself id := by
  cases hjoin : (p.op id).isJoin with
  | false =>
      rw [exposed_of_not_join hjoin]
      refine iff_of_true (nodup_columnsOf (nodup_singleton id)) fun hself => ?_
      rw [hself.1] at hjoin
      cases hjoin
  | true =>
      have harity := hpair hjoin ▸ h.arity id hid
      obtain ⟨left, right, hinputs⟩ : ∃ left right, p.inputs id = [left, right] := by
        simpa [Arity.admits, length_eq_two] using harity
      have hleft : left ∈ l := h.mem_of_input hid (by simp [hinputs])
      rw [exposed_of_join hjoin, hinputs, nodup_columnsOf_pair, not_iff_not]
      constructor
      · rintro ⟨rfl, hpos⟩
        exact ⟨hjoin, left, _, hinputs, h.width_eq hleft, hpos⟩
      · rintro ⟨-, i, width, hself, hwidth, hpos⟩
        obtain ⟨rfl, rfl⟩ : left = i ∧ right = i := by simpa [hself, eq_comm] using hinputs
        rw [h.width_eq hleft] at hwidth
        exact ⟨rfl, Except.ok.inj hwidth ▸ hpos⟩

/-- The joins of a plan that is read take two inputs. -/
theorem Unbound.arity_of_isJoin (h : p.Unbound) (hid : id ∈ p.order)
    (hjoin : (p.op id).isJoin = true) : (p.op id).arity = .exactly 2 := by
  cases hop : p.op id with
  | join j => rfl
  | leftDeepJoin j => exact absurd hop ((h.unbound id hid).unfused default j).2
  | _ =>
      rw [hop] at hjoin
      cases hjoin

/-- The positions of a node name different columns, unless the node or an input of it joins a node
with itself. -/
theorem Unbound.nodup_namedColumns (h : p.Unbound) (hid : id ∈ p.order)
    (hself : ¬p.JoinsWithItself id) (hinputs : ∀ i ∈ p.inputs id, ¬p.JoinsWithItself i) :
    (p.namedColumns id).Nodup := by
  have hsource : ∀ source, p.bindingSource id = .ok source →
      source ∈ p.order ∧ ¬p.JoinsWithItself source := by
    have hunary : ∀ source, (p.node id).singleInput = .ok source →
        source ∈ p.order ∧ ¬p.JoinsWithItself source := by
      intro source hsingle
      have hmem : source ∈ p.inputs id := by
        rw [inputs, Node.singleInput_eq_ok.mp hsingle]
        exact mem_singleton_self source
      exact ⟨h.arranged.mem_of_input hid hmem, hinputs source hmem⟩
    intro source hok
    unfold bindingSource at hok
    split at hok
    · exact Except.ok.inj hok ▸ ⟨hid, hself⟩
    · exact hunary source hok
  rw [namedColumns]
  cases hok : p.bindingSource id with
  | error e => exact nodup_nil
  | ok source =>
      obtain ⟨hlive, hnot⟩ := hsource source hok
      rw [Result.bind_ok rfl, h.arranged.output_eq hlive]
      exact (h.arranged.nodup_exposed_iff hlive (h.arity_of_isJoin hlive)).mpr hnot

end Plan

/-- **Distinct positions.** A node of a bound query shows a column twice exactly if it joins a node
that has columns with itself. So two positions of a node name one column only if the node is such a
join or reads one. -/
theorem positions_distinct {env : Environment} {text : String} {query : Query}
    (h : Query.unoptimizedOfText env text = .ok query) :
    (∀ id ∈ query.plan.order, ∃ columns, query.plan.output id = .ok columns ∧
      (columns.Nodup ↔ ¬query.plan.JoinsWithItself id)) ∧
    ∃ (rels : Json) (p : Plan) (next : BuildState),
      Plan.ofDocument env (Expr.ofDocument (Plan.subqueryOfDocument env)) rels .start =
        .ok (p, next) ∧ p.bind = .ok query.plan ∧ query.plan = p.resolved ∧
      ∀ id ∈ p.order, ¬p.JoinsWithItself id → (∀ i ∈ p.inputs id, ¬p.JoinsWithItself i) →
        ∀ (k k' : Nat) (c : ColumnRef), (p.namedColumns id)[k]? = some c →
          (p.namedColumns id)[k']? = some c → k = k' := by
  obtain ⟨j, last, -, hbuild⟩ := Query.unoptimizedOfText_eq_ok h
  obtain ⟨rels, _, hfield, hbuild⟩ := Build.bind_eq_ok.mp hbuild
  obtain ⟨-, rfl⟩ := Build.lift_eq_ok.mp hfield
  obtain ⟨p, next, hread, hbuild⟩ := Build.bind_eq_ok.mp hbuild
  obtain ⟨_, _, -, hbuild⟩ := Build.bind_eq_ok.mp hbuild
  obtain ⟨hbind, -⟩ := Build.lift_eq_ok.mp hbuild
  have hp : p.Unbound := Plan.ofDocument_unbound (Expr.ofDocument_columns _) rels _ _ _ hread
  obtain ⟨-, hresolved⟩ := hp.bind_eq_ok.mp hbind
  constructor
  · have hshape : Plan.SameShape p query.plan := hresolved ▸ (Plan.ResolvedUpTo.resolved hp).sameShape
    have horder : query.plan.order = p.order := hresolved ▸ rfl
    rw [horder]
    intro id hid
    have harranged := hp.arranged.of_sameShape hshape
    refine ⟨_, harranged.output_eq hid, harranged.nodup_exposed_iff hid fun hjoin => ?_⟩
    rw [hshape.arity_eq]
    exact hp.arity_of_isJoin hid (hshape.isJoin_eq id ▸ hjoin)
  · refine ⟨rels, p, next, hread, hbind, hresolved, fun id hid hself hinputs k k' c hk hk' => ?_⟩
    have hnodup := hp.nodup_namedColumns hid hself hinputs
    obtain ⟨hlt, -⟩ := List.getElem?_eq_some_iff.mp hk
    exact (getElem?_inj hlt hnodup).mp (hk.trans hk'.symm)

/-- Rows of a column `a`, rows of a column `x`, and a join of the former with one of the two on
`CASE`. -/
def joinOfRows (second : String) : String := Query.textOf
  ["\x7b\"rels\":[\x7b\"id\":0,\"relOp\":\"LogicalValues\",", "\"inputs\":[],\"tuples\":[],",
    "\"type\":[\x7b\"type\":\"BOOLEAN\",", "\"nullable\":true,\"name\":\"a\"\x7d]\x7d,",
    "\x7b\"id\":1,\"relOp\":\"LogicalValues\",", "\"inputs\":[],\"tuples\":[],",
    "\"type\":[\x7b\"type\":\"BOOLEAN\",", "\"nullable\":true,\"name\":\"x\"\x7d]\x7d,",
    "\x7b\"id\":2,\"relOp\":\"LogicalJoin\",\"inputs\":[\"0\",\"", second, "\"],",
    "\"joinType\":\"inner\",\"condition\":\x7b\"op\":\"CASE\",",
    "\"operands\":[\x7b\"input\":0\x7d,\x7b\"input\":1\x7d]\x7d\x7d]\x7d"]

/-- The bound join of two nodes shows different columns. -/
theorem positions_distinct_joinOfRows :
    ∃ query columns, Query.unoptimizedOfText default (joinOfRows "1") = .ok query ∧
      query.plan.output ⟨2⟩ = .ok columns ∧ columns.length = 2 ∧ columns.Nodup := by
  have hrun : (Query.unoptimizedOfText default (joinOfRows "1")).holds (fun query =>
      decide (⟨2⟩ ∈ query.plan.order ∧ query.plan.inputs ⟨2⟩ = [⟨0⟩, ⟨1⟩] ∧
        query.plan.output ⟨2⟩ = .ok [⟨⟨0⟩, 0⟩, ⟨⟨1⟩, 0⟩])) = true := by
    rw [Query.unoptimizedOfText, Query.documentOfText, Json.ofText, Json.ofText?, joinOfRows,
      Query.textOf, Json.Written.ofTextWithin?, String.toList_ofList]
    decide +kernel
  obtain ⟨query, hquery, hplan⟩ := Result.holds_eq_true.mp hrun
  obtain ⟨hlive, hinputs, hcolumns⟩ := of_decide_eq_true hplan
  obtain ⟨columns, houtput, hnodup⟩ := (positions_distinct hquery).1 ⟨2⟩ hlive
  refine ⟨query, columns, hquery, houtput, ?_, hnodup.mpr ?_⟩
  · rw [← Except.ok.inj (hcolumns.symm.trans houtput)]
    rfl
  · rintro ⟨-, i, width, hself, -⟩
    obtain ⟨rfl, h⟩ : i = ⟨0⟩ ∧ i = ⟨1⟩ := by simpa [hself, eq_comm] using hinputs
    cases h

/-- The join of a node with itself is bound, shows its only column twice, and both positions of its
condition become that column. -/
theorem positions_coincide_joinOfRows :
    ∃ query, Query.unoptimizedOfText default (joinOfRows "0") = .ok query ∧
      ⟨2⟩ ∈ query.plan.order ∧ query.plan.output ⟨2⟩ = .ok [⟨⟨0⟩, 0⟩, ⟨⟨0⟩, 0⟩] ∧
      (query.plan.op ⟨2⟩).columns = [⟨⟨0⟩, 0⟩, ⟨⟨0⟩, 0⟩] := by
  have hrun : (Query.unoptimizedOfText default (joinOfRows "0")).holds (fun query =>
      decide (⟨2⟩ ∈ query.plan.order ∧ query.plan.output ⟨2⟩ = .ok [⟨⟨0⟩, 0⟩, ⟨⟨0⟩, 0⟩] ∧
        (query.plan.op ⟨2⟩).columns = [⟨⟨0⟩, 0⟩, ⟨⟨0⟩, 0⟩])) = true := by
    rw [Query.unoptimizedOfText, Query.documentOfText, Json.ofText, Json.ofText?, joinOfRows,
      Query.textOf, Json.Written.ofTextWithin?, String.toList_ofList]
    decide +kernel
  obtain ⟨query, hquery, hplan⟩ := Result.holds_eq_true.mp hrun
  exact ⟨query, hquery, of_decide_eq_true hplan⟩

end QueryPlan
