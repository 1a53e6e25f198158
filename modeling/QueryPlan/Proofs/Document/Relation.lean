import QueryPlan.Document.Relation
import QueryPlan.Proofs.Outcome
/-!
# QueryPlan.Proofs.Document.Relation

**Which operator an entry is read to.** A reader that needs no expressions gives an operator of its own
kind. The reader of a change of a table besides marks the projection below it (`modify_eq_ok`).
-/

namespace QueryPlan

namespace Relation

variable {env : Environment} {p : Plan} {j : Json} {op : Operator}

theorem scan_eq_ok (h : scan env j = .ok op) : ∃ s, op = .scan s := by
  unfold scan at h
  simp only [Result.bind_eq_ok] at h
  obtain ⟨_, -, _, -, _, -, _, -, _, -, _, -, h⟩ := h
  exact ⟨_, (Result.pure_eq_ok.mp h).symm⟩

theorem materializedScan_eq_ok (h : materializedScan env j = .ok op) :
    ∃ s, op = .materializedScan s := by
  unfold materializedScan at h
  simp only [Result.bind_eq_ok] at h
  obtain ⟨_, -, _, -, _, -, _, -, _, -, _, -, _, -, _, -, h⟩ := h
  exact ⟨_, (Result.pure_eq_ok.mp h).symm⟩

theorem aggregate_eq_ok (h : aggregate j = .ok op) :
    ∃ a, op = .aggregate a ∧ a.fields.length = a.width ∧ a.isNop = false := by
  unfold aggregate at h
  simp only [Result.bind_eq_ok] at h
  obtain ⟨_, -, fields, -, _, -, group, -, _, -, _, -, _, -, _, -, calls, -, _, hlength, h⟩ := h
  exact ⟨_, (Result.pure_eq_ok.mp h).symm, beq_iff_eq.mp (Result.ensure_eq_ok.mp hlength), rfl⟩

theorem sort_eq_ok (h : sort j = .ok op) : ∃ s, op = .sort s := by
  unfold sort at h
  simp only [Result.bind_eq_ok] at h
  obtain ⟨_, -, _, -, _, -, _, -, _, -, _, -, h⟩ := h
  exact ⟨_, (Result.pure_eq_ok.mp h).symm⟩

theorem values_eq_ok (h : values j = .ok op) : ∃ v, op = .values v := by
  unfold values at h
  simp only [Result.bind_eq_ok] at h
  obtain ⟨_, -, _, -, _, -, _, -, _, -, _, -, _, -, _, -, _, -, h⟩ := h
  exact ⟨_, (Result.pure_eq_ok.mp h).symm⟩

theorem union_eq_ok (h : union env j = .ok op) : ∃ u, op = .union u := by
  unfold union at h
  simp only [Result.bind_eq_ok] at h
  obtain ⟨_, -, _, -, _, -, _, -, h⟩ := h
  exact ⟨_, (Result.pure_eq_ok.mp h).symm⟩

/-- A change of a table marks the projection below it, or leaves the plan as it is. -/
theorem modify_eq_ok {inputs : List NodeId} {r : Plan × Operator}
    (h : modify env p inputs j = .ok r) : (∃ m, r.2 = .modify m) ∧
      (r.1 = p ∨ ∃ operation target, markTarget p operation target inputs = .ok r.1) := by
  unfold modify at h
  obtain ⟨table, -, h⟩ := Result.bind_eq_ok.mp h
  obtain ⟨text, -, h⟩ := Result.bind_eq_ok.mp h
  obtain ⟨name, -, h⟩ := Result.bind_eq_ok.mp h
  obtain ⟨operation, -, h⟩ := Result.bind_eq_ok.mp h
  obtain ⟨flag, -, h⟩ := Result.bind_eq_ok.mp h
  obtain ⟨flattened, -, h⟩ := Result.bind_eq_ok.mp h
  have hmarked : ∀ {columns kind}, (do
      Result.ensure (!table.isView) (.modifiedView operation.name)
      let variableLength ← assignsVariableLength table columns
      return (← markTarget p operation ⟨kind, table, columns, variableLength⟩ inputs,
        Operator.modify ⟨table, operation, flattened, columns⟩)) = Except.ok r →
      (∃ m, r.2 = .modify m) ∧
        (r.1 = p ∨ ∃ operation target, markTarget p operation target inputs = .ok r.1) := by
    intro columns kind h
    obtain ⟨_, -, h⟩ := Result.bind_eq_ok.mp h
    obtain ⟨variableLength, -, h⟩ := Result.bind_eq_ok.mp h
    obtain ⟨q, hq, h⟩ := Result.bind_eq_ok.mp h
    cases Result.pure_eq_ok.mp h
    exact ⟨⟨_, rfl⟩, .inr ⟨_, _, hq⟩⟩
  cases operation with
  | insert =>
      cases Result.pure_eq_ok.mp h
      exact ⟨⟨_, rfl⟩, .inl rfl⟩
  | update =>
      obtain ⟨_, -, h⟩ := Result.bind_eq_ok.mp h
      obtain ⟨columns, -, h⟩ := Result.bind_eq_ok.mp h
      exact hmarked h
  | delete => exact hmarked h

end Relation

end QueryPlan
