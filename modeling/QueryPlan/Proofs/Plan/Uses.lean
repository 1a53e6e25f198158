import QueryPlan.Proofs.Plan.Arrangement
import Mathlib.Algebra.Order.BigOperators.Group.List
import Mathlib.Algebra.Order.Group.Nat
/-!
# QueryPlan.Proofs.Plan.Uses

**Who reads a node.** A node with a use count of one is read by one live node, at one place.
-/

namespace QueryPlan

open List

namespace Plan

variable {p : Plan} {id a b : NodeId}

theorem mem_consumers : a ∈ p.consumers id ↔ a ∈ p.order ∧ id ∈ p.inputs a := by
  simp [consumers]

theorem uses_pos_iff : 0 < (p.node a).uses id ↔ id ∈ p.inputs a := by
  rw [Node.uses, count_pos_iff]
  rfl

theorem uses_of_inputs_eq (h : p.inputs a = [id]) : (p.node a).uses id = 1 := by
  change (p.inputs a).count id = 1
  rw [h, count_singleton_self]

theorem uses_le_useCount (ha : a ∈ p.order) : (p.node a).uses id ≤ p.useCount id :=
  le_sum_of_mem (mem_map_of_mem ha)

/-- A node with a use count of one has one reader only. -/
theorem reader_unique (huse : p.useCount id = 1) (ha : a ∈ p.order)
    (haid : id ∈ p.inputs a) (hb : b ∈ p.order) (hbid : id ∈ p.inputs b) : a = b := by
  by_contra hab
  obtain ⟨pre, post, horder⟩ := append_of_mem ha
  rw [horder, mem_append, mem_cons] at hb
  rw [useCount, horder, map_append, map_cons, sum_append, sum_cons] at huse
  have hauses := uses_pos_iff.mpr haid
  have hbuses := uses_pos_iff.mpr hbid
  rcases hb with hb | hb | hb
  · have := le_sum_of_mem (mem_map_of_mem (f := fun n => (p.node n).uses id) hb)
    omega
  · exact hab hb.symm
  · have := le_sum_of_mem (mem_map_of_mem (f := fun n => (p.node n).uses id) hb)
    omega

/-- A node with a use count of one is read at one place only. -/
theorem count_inputs_of_useCount (huse : p.useCount id = 1) (ha : a ∈ p.order)
    (haid : id ∈ p.inputs a) : (p.inputs a).count id = 1 := by
  have hle : (p.node a).uses id ≤ p.useCount id := uses_le_useCount ha
  have hpos := uses_pos_iff.mpr haid
  change (p.node a).uses id = 1
  omega

/-- A node that one node reads, and at one place, has a use count of one. -/
theorem useCount_eq_one (hnodup : p.order.Nodup) (ha : a ∈ p.order) (hinputs : p.inputs a = [id])
    (honly : ∀ b ∈ p.order, id ∈ p.inputs b → b = a) : p.useCount id = 1 := by
  obtain ⟨pre, post, horder⟩ := append_of_mem ha
  have hnot := (nodup_cons.mp (nodup_middle.mp (horder ▸ hnodup))).1
  rw [mem_append, not_or] at hnot
  have hnone : ∀ {l : List NodeId}, l ⊆ p.order → a ∉ l →
      (l.map fun n => (p.node n).uses id).sum = 0 := by
    intro l hl hal
    refine sum_eq_zero fun n hn => ?_
    obtain ⟨b, hb, rfl⟩ := mem_map.mp hn
    refine Nat.eq_zero_of_not_pos fun hpos => hal ?_
    exact honly b (hl hb) (uses_pos_iff.mp hpos) ▸ hb
  have hpre : pre ⊆ p.order := by rw [horder]; exact subset_append_left ..
  have hpost : post ⊆ p.order := by
    rw [horder]
    exact fun b hb => mem_append_right _ (mem_cons_of_mem _ hb)
  rw [useCount, horder, map_append, map_cons, sum_append, sum_cons, hnone hpre hnot.1,
    hnone hpost hnot.2, uses_of_inputs_eq hinputs]

/-- A node that nothing reads has a use count of zero. -/
theorem useCount_eq_zero_iff : p.useCount id = 0 ↔ ∀ a ∈ p.order, id ∉ p.inputs a := by
  constructor
  · intro h a ha hread
    have hle : (p.node a).uses id ≤ p.useCount id := uses_le_useCount ha
    have hpos := uses_pos_iff.mpr hread
    omega
  · intro h
    refine sum_eq_zero fun n hn => ?_
    obtain ⟨a, ha, rfl⟩ := mem_map.mp hn
    exact Nat.eq_zero_of_not_pos fun hpos => h a ha (uses_pos_iff.mp hpos)

/-- Nothing reads the root. -/
theorem Ordered.useCount_root (h : p.Ordered p.order) (hroot : p.root? = some id) :
    p.useCount id = 0 :=
  useCount_eq_zero_iff.mpr fun _ ha hread => h.root?_ne_of_mem_inputs ha hread hroot

end Plan

end QueryPlan
