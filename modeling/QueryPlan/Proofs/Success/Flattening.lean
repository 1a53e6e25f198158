import QueryPlan.Proofs.Flattening.Inputs
import QueryPlan.Proofs.Success.Lookups
/-!
# QueryPlan.Proofs.Success.Flattening

**Flattening joins keeps a plan readable.** A left-deep join looks up nothing and is as wide as the
join that it replaces. All other nodes look up what they looked up.
-/

namespace QueryPlan

open List

theorem Operator.lookups_mapExprs (f : Expr → Expr) (op : Operator) :
    (op.mapExprs f).lookups = op.lookups := by
  simp [lookups]

namespace Plan

variable {p q : Plan} {root : NodeId}

theorem Flattening.lookupsInRange (f : Flattening p root q) (hp : p.WellFormed)
    (hroot : root ∈ p.order) (hjoin : p.isBinaryJoin f.topJoin = true) (h : p.LookupsInRange) :
    q.LookupsInRange := by
  refine h.of_lookups fun x hx i hi k hk => ?_
  have hne : x ≠ p.nextId := by
    rintro rfl
    rw [f.op_nextId hp hroot] at hk
    exact absurd hk not_mem_nil
  obtain ⟨hmem, hleft⟩ := f.mem_of_mem_result hp hroot hx hne
  have hlive : x ∈ p.order := f.mem_order.mpr (.inr hmem)
  rw [f.op_eq hp hroot hjoin hmem hleft, Operator.lookups_mapExprs] at hk
  rw [f.inputs_eq hp.arranged.toOrdered hmem] at hi
  obtain ⟨j, hj, rfl⟩ := mem_map.mp hi
  have hcount := f.columnCount_replaced hp hroot hjoin (hp.arranged.mem_of_input hlive hj)
  exact ⟨x, hlive, j, hj, hk, Nat.le_of_eq hcount.symm⟩

/-- A readable plan is flattened to a readable one, if inner joins belong to the filters right above
them. -/
theorem Readable.flattenJoins_ok (h : p.Readable) (hfilters : p.JoinsBelongToFilters)
    (next : Nat) : ∃ q next', p.flattenJoins next = .ok (q, next') ∧ q.Readable := by
  obtain ⟨q, next', hq, hwf, hlookups⟩ := h.flattenJoins_induct hfilters h.lookups
    (fun _ _ _ f hwf hroot hjoin hlookups => f.lookupsInRange hwf hroot hjoin hlookups) next
  exact ⟨q, next', hq, hwf, hlookups⟩

end Plan

end QueryPlan
