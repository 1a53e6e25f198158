import QueryPlan.Proofs.Plan.Loops
import QueryPlan.Proofs.Scope.Bypass
import QueryPlan.Proofs.Scope.Positions
/-!
# QueryPlan.Proofs.Success.Lookups

**Positions that operators look up.** Group keys, operands, sort keys and the columns of a cursor are
positions in the output of an input (`Operator.lookups`). They belong to no expression, so
well-formedness does not speak about them. A plan is readable if it is well-formed and each of these
positions is in range (`Plan.Readable`).

Of a bound plan, the columns of a cursor are in range because they are arguments as well
(`Plan.Unbound.readable`). For all other positions nothing sees to that.

Edits of a readable plan are not refused: what they look up is there. Here they are proved for nodes
that read another node instead (`Rewired.lookupsInRange`) and for loops over the live nodes
(`Plan.removals_ok`).
-/

namespace QueryPlan

open List

/-- The group count of an operator is at most a width, and its operands and sort fields are below
it. -/
def Operator.OperandsWithin (width : Nat) : Operator → Prop
  | aggregate a => a.groupCount ≤ width ∧ ∀ call ∈ a.calls, ∀ k ∈ call.operands, k < width
  | sort s => ∀ key ∈ s.collation, key.column < width
  | _ => True

instance (width : Nat) : DecidablePred (Operator.OperandsWithin width)
  | .aggregate a => inferInstanceAs
      (Decidable (a.groupCount ≤ width ∧ ∀ call ∈ a.calls, ∀ k ∈ call.operands, k < width))
  | .sort s => inferInstanceAs (Decidable (∀ key ∈ s.collation, key.column < width))
  | .scan _ | .materializedScan _ | .project _ | .filter _ | .join _ | .values _ | .modify _
  | .tableFunction _ | .union _ | .compound _ | .leftDeepJoin _ => .isTrue trivial

/-- An operator looks up positions below a width if its operands are within it and a cursor forwards
columns below it. -/
theorem Operator.lookups_lt_iff {width : Nat} {op : Operator} :
    (∀ k ∈ op.lookups, k < width) ↔ op.OperandsWithin width ∧
      ∀ t, op = .tableFunction t → ∀ k ∈ t.cursorColumns, k < width := by
  cases op with
  | aggregate a =>
      refine ⟨fun h => ⟨⟨Nat.le_of_not_lt fun hlt => ?_, fun call hcall k hk => ?_⟩, nofun⟩,
        fun ⟨⟨hcount, hoperands⟩, _⟩ k hk => ?_⟩
      · exact Nat.lt_irrefl _ (h width (mem_append_left _ (mem_range.mpr hlt)))
      · exact h k (mem_append_right _ (mem_flatMap.mpr ⟨call, hcall, hk⟩))
      · rcases mem_append.mp hk with hk | hk
        · exact Nat.lt_of_lt_of_le (mem_range.mp hk) hcount
        · obtain ⟨call, hcall, hk⟩ := mem_flatMap.mp hk
          exact hoperands call hcall k hk
  | _ => simp [lookups, groupKeys, positions, OperandsWithin]

namespace Node

variable (n : Node) (old new : NodeId) (mapping : Option ColumnMap) (columns : List ColumnRef)

@[simp] theorem groupKeys_moved :
    (n.moved old new mapping columns).op.groupKeys = n.op.groupKeys := by
  unfold moved movedOp
  dsimp only
  split <;> simp

theorem positions_moved : (n.moved old new mapping columns).op.positions =
    if n.inputs.contains old && mapping.isSome then
      n.op.positions.map fun i => Result.valueOr i (Plan.mappedPosition old mapping i)
    else n.op.positions := by
  unfold moved movedOp
  dsimp only
  split <;> simp [Operator.positions_mapPositions]

end Node

namespace Plan

variable {p q r : Plan} {id input old new : NodeId} {mapping : Option ColumnMap}
  {changed : List NodeId}

/-- No node looks up a position that its input does not have. -/
def LookupsInRange (p : Plan) : Prop :=
  ∀ x ∈ p.order, ∀ i ∈ p.inputs x, ∀ k ∈ (p.op x).lookups, k < p.columnCount i

instance (p : Plan) : Decidable p.LookupsInRange := inferInstanceAs (Decidable (∀ _ ∈ _, _))

/-- A well-formed plan in which every position that is looked up is there. -/
structure Readable (p : Plan) : Prop extends p.WellFormed where
  lookups : p.LookupsInRange

/-- Positions stay in range if every node that looks them up did so before, in an input that was
not wider. -/
theorem LookupsInRange.of_lookups (h : p.LookupsInRange)
    (hq : ∀ x ∈ q.order, ∀ i ∈ q.inputs x, ∀ k ∈ (q.op x).lookups,
      ∃ y ∈ p.order, ∃ j ∈ p.inputs y, k ∈ (p.op y).lookups ∧
        p.columnCount j ≤ q.columnCount i) : q.LookupsInRange := fun x hx i hi k hk => by
  obtain ⟨y, hy, j, hj, hk, hle⟩ := hq x hx i hi k hk
  exact Nat.lt_of_lt_of_le (h y hy j hj k hk) hle

/-- Positions stay in range in a plan of the same shape in which nodes look up the same ones. -/
theorem LookupsInRange.of_sameShape (h : p.LookupsInRange) (hshape : SameShape p q)
    (horder : q.order ⊆ p.order) (hlookups : ∀ x ∈ q.order, (q.op x).lookups = (p.op x).lookups) :
    q.LookupsInRange :=
  h.of_lookups fun x hx i hi _ hk => ⟨x, horder hx, i, hshape.inputs_eq x ▸ hi,
    hlookups x hx ▸ hk, Nat.le_of_eq (congrFun hshape.columnCount_eq i).symm⟩

theorem LookupsInRange.remove (h : p.LookupsInRange) : (p.remove id).LookupsInRange :=
  h.of_sameShape (.of_arena_eq rfl) (fun _ hx => (mem_filter.mp hx).1) fun _ _ => rfl

/-- A node may get an operator of the same layout that looks up the same positions. -/
theorem LookupsInRange.setOp (h : p.LookupsInRange) (hid : id.index < p.arena.size) {op : Operator}
    (hlayout : op.layout = (p.op id).layout) (harity : op.arity = (p.op id).arity)
    (hlookups : op.lookups = (p.op id).lookups) : (p.setOp id op).LookupsInRange := by
  refine h.of_sameShape (.setOp hid hlayout harity) (Subset.refl _) fun x _ => ?_
  by_cases hx : x = id
  · rw [hx, op_setOp_self op hid, hlookups]
  · rw [Plan.op, node_setOp_of_ne op hx]
    rfl

/-- Without a mapping, nodes look up the positions that they looked up. -/
theorem Rewired.lookups_eq (hr : Rewired p q old new none changed) (x : NodeId) :
    (q.op x).lookups = (p.op x).lookups := by
  by_cases hx : x ∈ changed
  · obtain ⟨columns, hnode⟩ := hr.node_moved x hx
    rw [Operator.lookups, Plan.op, hnode, Node.groupKeys_moved, Node.positions_moved,
      if_neg (by simp)]
    rfl
  · rw [hr.op_other hx]

/-- Positions stay in range if nodes read a node as wide as the old one, and the mapping sends
positions of the old node to positions of the new one. -/
theorem Rewired.lookupsInRange (hr : Rewired p q old new mapping changed) (h : p.WellFormed)
    (hlookups : p.LookupsInRange)
    (hcount : ∀ x ∈ p.order, q.columnCount x = p.columnCount x)
    (hnew : q.columnCount new = p.columnCount old)
    (hmapping : ∀ i < p.columnCount old, ∀ k, mappedPosition old mapping i = .ok k →
      k < p.columnCount old) : q.LookupsInRange := by
  intro x hx i hi k hk
  rw [hr.order_eq] at hx
  by_cases hchanged : x ∈ changed
  · rw [hr.inputs_eq hchanged] at hi
    obtain ⟨j, hj, rfl⟩ := mem_map.mp hi
    have hwidth : q.columnCount (old.replaced new j) = p.columnCount j := by
      by_cases hjold : j = old
      · rw [hjold, NodeId.replaced_self, hnew]
      · rw [NodeId.replaced_of_ne new hjold, hcount j (h.arranged.mem_of_input hx hj)]
    rw [hwidth]
    obtain ⟨columns, hnode⟩ := hr.node_moved x hchanged
    rw [Operator.lookups, Plan.op, hnode, Node.groupKeys_moved, Node.positions_moved] at hk
    split at hk
    · next hread =>
      have hold : old ∈ p.inputs x := by
        simp only [Bool.and_eq_true, contains_iff_mem] at hread
        exact hread.1
      rcases mem_append.mp hk with hk | hk
      · exact hlookups x hx j hj k (mem_append_left _ hk)
      · obtain ⟨position, hposition, rfl⟩ := mem_map.mp hk
        -- A node that looks up positions has one input, the old one.
        obtain ⟨y, hy, -⟩ :=
          h.input_of_arity_one hx (Operator.arity_of_mem_positions hposition)
        obtain rfl : old = y := by simpa [hy] using hold
        obtain rfl : j = old := by simpa [hy] using hj
        have hlt := hlookups x hx j hj position (mem_append_right _ hposition)
        cases hmap : mappedPosition j mapping position with
        | ok k => exact hmapping position hlt k hmap
        | error e => exact hlt
    · exact hlookups x hx j hj k hk
  · rw [hr.inputs_other hchanged] at hi
    rw [hr.op_other hchanged] at hk
    rw [hcount i (h.arranged.mem_of_input hx hi)]
    exact hlookups x hx i hi k hk

/-! ### Bound plans -/

/-- Group counts, operands and sort fields are within the widths of inputs. -/
def OperandsInRange (p : Plan) : Prop :=
  ∀ x ∈ p.order, ∀ i ∈ p.inputs x, ∀ width, p.width i = .ok width → (p.op x).OperandsWithin width

instance (p : Plan) : Decidable p.OperandsInRange :=
  inferInstanceAs (Decidable (∀ x ∈ p.order, ∀ i ∈ p.inputs x, ∀ _, _ → _))

/-- The columns that a cursor forwards are in range in a bound plan. -/
theorem Unbound.cursor_lt (h : p.Unbound) (hq : p.bind = .ok q) {x : NodeId} (hx : x ∈ q.order)
    {t : TableFunction} (hop : q.op x = .tableFunction t) (hinput : input ∈ q.inputs x) {k : Nat}
    (hk : k ∈ t.cursorColumns) : k < q.columnCount input := by
  obtain ⟨hrange, rfl⟩ := h.bind_eq_ok.mp hq
  have hshape := (ResolvedUpTo.resolved h).sameShape
  have hlive : x ∈ p.order := hx
  -- The table function was read with the same cursor.
  obtain ⟨t', hread, hcursor⟩ : ∃ t', p.op x = .tableFunction t' ∧
      t'.cursorColumns = t.cursorColumns := by
    rw [Plan.op, node_resolved h.arranged.inArena, if_pos hlive] at hop
    change (p.op x).resolve _ = _ at hop
    cases hread : p.op x <;> rw [hread] at hop <;> cases hop
    exact ⟨_, rfl, rfl⟩
  have harg : Expr.positional k ∈ (p.op x).exprs := by
    rw [hread]
    exact mem_append_left _ ((h.unbound x hlive).cursor t' hread k (hcursor ▸ hk))
  have hlt := h.positionsInRange_iff.mp hrange x hlive _ harg k (mem_singleton_self _)
  obtain ⟨i, hi⟩ := Arity.exactly_one_admits (by
    have harity := h.arranged.arity x hlive
    rwa [hread] at harity)
  rw [hshape.inputs_eq, hi, mem_singleton] at hinput
  rw [reads_of_input (by rw [hread]; rfl) hi, length_columnsOf,
    ← h.arranged.columnCount_eq_sum_exposed
      (h.arranged.mem_of_input hlive (hi ▸ mem_singleton_self i))] at hlt
  rwa [hshape.columnCount_eq, hinput]

/-- A bound plan is readable if its group counts, operands and sort fields are in range. -/
theorem Unbound.readable (h : p.Unbound) (hq : p.bind = .ok q) (hrange : q.OperandsInRange) :
    q.Readable := by
  obtain ⟨hwf, -⟩ := h.bind_wellFormed hq
  refine ⟨hwf, fun x hx i hi => Operator.lookups_lt_iff.mpr ⟨?_, fun t hop k hk => ?_⟩⟩
  · exact hrange x hx i hi _ (hwf.arranged.width_eq (hwf.arranged.mem_of_input hx hi))
  · exact h.cursor_lt hq hx hop hi hk

/-! ### Edits -/

/-- A node that is as wide as its only input may be taken out of a readable plan, if the mapping has
a place in the input for each of its columns. -/
theorem Readable.bypass_ok (h : p.Readable) (hid : id ∈ p.order) (hop : (p.op id).isJoin = false)
    (hinputs : p.inputs id = [input]) (hcount : p.columnCount id = p.columnCount input)
    (hmapping : ∀ i < p.columnCount id,
      ∃ k, mappedPosition id mapping i = .ok k ∧ k < p.columnCount id) :
    ∃ q, p.bypass id mapping = .ok q ∧ q.Readable ∧
      q.order = p.order.filter fun n => n != id := by
  have hinput : input ∈ p.inputs id := hinputs ▸ mem_singleton_self input
  have hinputLive := h.arranged.mem_of_input hid hinput
  obtain ⟨l, hsteady⟩ := h.arranged.steady_to_input hid hinput (p.order.filter fun n => n != input)
  have hloop : ∃ r, p.replaceInputEverywhere id input mapping = .ok r ∧
      Redirection p r id input mapping (p.order.filter fun n => n != input) := by
    refine foldlM_replaceInput_ok (h.nodup.filter _) (fun n hn => h.inArena (mem_filter.mp hn).1)
      hsteady (fun n hn c hc hold => ?_) fun n hn hread _ i hi => ?_
    · rw [← hcount]
      exact hmapping _ (hold ▸ (h.reads_of_mem (mem_filter.mp hn).1 hc).2)
    · obtain ⟨k, hk, -⟩ := hmapping i
        (h.lookups n (mem_filter.mp hn).1 id hread i (mem_append_right _ hi))
      exact ⟨k, hk⟩
  obtain ⟨r, hr, hred⟩ := hloop
  have hbypass : p.bypass id mapping = .ok (r.remove id) := by
    rw [bypass, Result.bind_ok (Node.singleInput_eq_ok.mpr hinputs), Result.bind_ok hr]
    rfl
  obtain ⟨hwf, horder⟩ := h.toWellFormed.bypass hid hop
    (fun i hi => by cases hinputs.symm.trans hi; exact hcount) hbypass
  obtain ⟨-, hqCount⟩ := h.redirected_to_input hid hop hinput hcount.symm hred
  refine ⟨_, hbypass, ⟨hwf, ?_⟩, horder⟩
  refine (hred.toRewired.lookupsInRange h.toWellFormed h.lookups hqCount ?_ ?_).remove
  · rw [hqCount _ hinputLive, hcount]
  · intro i hi k hk
    obtain ⟨k', hk', hlt⟩ := hmapping i hi
    exact Except.ok.inj (hk'.symm.trans hk) ▸ hlt

/-- A loop over the live nodes of a readable plan succeeds if each step does, keeps the plan
readable and takes out nothing further back than the node that it looks at. -/
theorem Readable.removals_ok {f : Plan → NodeId → Result Plan} (h : p.Readable)
    (step : ∀ r id, r.Readable → id ∈ r.order → ∃ r', f r id = .ok r' ∧ r'.Readable ∧
      r'.order <+ r.order ∧ ∀ x ∈ r.order, x ∉ r'.order → x = id ∨ [x, id] <+ r.order) :
    ∃ q, p.order.foldlM f p = .ok q ∧ q.Readable :=
  Plan.removals_ok h.nodup h fun r id hid hr => step r id hr hid

end Plan

end QueryPlan
