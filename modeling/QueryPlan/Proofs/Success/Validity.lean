import QueryPlan.Proofs.Flattening.Inputs
import QueryPlan.Proofs.LiveOrder.Pipeline
/-!
# QueryPlan.Proofs.Success.Validity

**Well-formed plans pass the check.** The walk of the check finds the nodes that can be reached along
inputs, each of them and no others (`mem_reachable`). A node of a well-formed plan refers to its
inputs or to the inputs of a join that it reads, and these are reached as well.
-/

namespace QueryPlan

open List

namespace Plan

variable {p : Plan} {x y z : NodeId}

theorem Reaches.trans (hxy : p.Reaches x y) (hyz : p.Reaches y z) : p.Reaches x z := by
  induction hxy with
  | refl => exact hyz
  | step hi _ ih => exact .step hi (ih hyz)

/-- From a node one reaches the node itself and what one reaches from its inputs. -/
theorem reaches_iff : p.Reaches x y ↔ y = x ∨ ∃ i ∈ p.inputs x, p.Reaches i y := by
  constructor
  · intro h
    cases h with
    | refl => exact .inl rfl
    | step hi h => exact .inr ⟨_, hi, h⟩
  · rintro (rfl | ⟨i, hi, h⟩)
    · exact .refl _
    · exact .step hi h

/-- The walk finds what it has seen and what can be reached from the nodes to visit, if the inputs
of everything seen are seen or to be visited. -/
theorem mem_reachFrom {seen todo : List NodeId}
    (hseen : ∀ s ∈ seen, ∀ i ∈ p.inputs s, i ∈ seen ∨ i ∈ todo) :
    x ∈ p.reachFrom seen todo ↔ x ∈ seen ∨ ∃ t ∈ todo, p.Reaches t x := by
  fun_induction reachFrom p seen todo with
  | case1 seen => simp
  | case2 seen id rest hold ih =>
      have hold : id ∈ seen := contains_iff_mem.mp hold
      have hrest : ∀ s ∈ seen, ∀ i ∈ p.inputs s, i ∈ seen ∨ i ∈ rest := fun s hs i hi => by
        have hi := hseen s hs i hi
        rw [mem_cons] at hi
        grind
      -- What is reached from something seen is seen, or reached from what is still to be visited.
      have hleave : ∀ s y, p.Reaches s y → s ∈ seen → y ∈ seen ∨ ∃ t ∈ rest, p.Reaches t y := by
        intro s y h
        induction h with
        | refl => exact .inl
        | step hi h keeps =>
            exact fun hs => (hrest _ hs _ hi).elim keeps fun hi => .inr ⟨_, hi, h⟩
      rw [ih hrest, exists_mem_cons_iff]
      exact ⟨Or.imp_right .inr, fun h => h.elim .inl fun h => h.elim (hleave id x · hold) .inr⟩
  | case3 seen id rest hnew ih =>
      rw [ih, mem_cons, exists_mem_cons_iff, reaches_iff]
      · grind
      · grind

/-- The check looks at the nodes that can be reached. -/
theorem mem_reachable : y ∈ p.reachable x ↔ p.Reaches x y := by
  rw [reachable, mem_reachFrom fun s hs => absurd hs not_mem_nil]
  simp

/-- What a node refers to can be reached from it. -/
theorem reaches_of_reads (h : y ∈ p.reads x) : p.Reaches x y := by
  rcases mem_inputs_of_reads h with hi | ⟨i, hi, -, hy⟩
  · exact .step hi (.refl y)
  · exact .step hi (.step hy (.refl y))

/-- The check passes exactly if nothing reads the root, and what can be reached from it is bound to
columns of nodes that can be reached as well. -/
theorem validate_eq_ok_iff {root : NodeId} (hroot : p.root? = some root) :
    p.validate = .ok () ↔ p.useCount root = 0 ∧ ∀ x, p.Reaches root x →
      (∀ e ∈ (p.op x).exprs, e.hasPositional = false) ∧
        ∀ c ∈ (p.op x).columns, p.Reaches root c.source := by
  have hexpr : ∀ x e, p.checkExpr (p.reachable root) x e = .ok () ↔
      e.hasPositional = false ∧ ∀ c ∈ e.columns, p.Reaches root c.source := fun x e => by
    rw [checkExpr, Result.check_eq_ok, Result.ensureQuoting_eq_ok, Result.forM_eq_ok]
    simp only [Result.ensureQuoting_eq_ok, contains_iff_mem, mem_reachable, Bool.not_eq_true']
  unfold validate
  rw [hroot]
  dsimp only
  rw [Result.check_eq_ok, Result.ensureQuoting_eq_ok, Result.forM_eq_ok, beq_iff_eq]
  simp only [Result.forM_eq_ok, hexpr, mem_reachable, forall_and, Operator.columns, mem_flatMap,
    forall_exists_index, and_imp]
  grind

/-- Well-formed plans pass the check. -/
theorem WellFormed.validate_ok (h : p.WellFormed) : p.validate = .ok () := by
  have hordered := h.arranged.toOrdered
  cases hroot : p.root? with
  | none =>
      unfold validate
      rw [hroot]
  | some root =>
      refine (validate_eq_ok_iff hroot).mpr ⟨hordered.useCount_root hroot, fun x hx => ?_⟩
      have hlive := hordered.mem_of_reaches (mem_of_getLast? hroot) hx
      exact ⟨h.bound x hlive, fun c hc =>
        hx.trans (reaches_of_reads (h.reads_of_mem hlive hc).1)⟩

end Plan

end QueryPlan
