import QueryPlan.Proofs.Plan.Arrangement
import Mathlib.Data.List.Chain
import Mathlib.Logic.Relation
/-!
# QueryPlan.Proofs.Plan.Cycles

**Long walks come back.** From a node that reaches a cycle there are walks of every length
(`ReachesCycle.exists_walk`). Where only nodes of the arena have successors, a walk with more steps
than the arena has nodes meets a node twice, and behind its first step it reaches a cycle
(`reachesCycle_of_walk`). A search that gives up after so many steps gives up on cycles only.
-/

namespace QueryPlan

open List

variable {α : Type} {R : α → α → Prop} {a b : α} {l : List α}

/-- A cycle can be reached along a relation. -/
def ReachesCycle (R : α → α → Prop) (a : α) : Prop :=
  ∃ c, Relation.ReflTransGen R a c ∧ Relation.TransGen R c c

theorem ReachesCycle.head (hab : R a b) (h : ReachesCycle R b) : ReachesCycle R a :=
  h.imp fun _ hc => ⟨hc.1.head hab, hc.2⟩

/-- The first step towards a cycle. -/
theorem ReachesCycle.exists_step (h : ReachesCycle R a) : ∃ b, R a b ∧ ReachesCycle R b := by
  obtain ⟨c, hac, hcycle⟩ := h
  rcases Relation.ReflTransGen.cases_head hac with rfl | ⟨b, hab, hbc⟩
  · obtain ⟨b, hab, hba⟩ := Relation.TransGen.head'_iff.mp hcycle
    exact ⟨b, hab, a, hba, hcycle⟩
  · exact ⟨b, hab, c, hbc, hcycle⟩

/-- From a node that reaches a cycle there are walks of every length. -/
theorem ReachesCycle.exists_walk (h : ReachesCycle R a) (n : Nat) :
    ∃ l, l.length = n ∧ IsChain R (a :: l) := by
  induction n generalizing a with
  | zero => exact ⟨[], rfl, isChain_singleton a⟩
  | succ n ih =>
      obtain ⟨b, hab, hb⟩ := h.exists_step
      obtain ⟨l, hlength, hchain⟩ := ih hb
      exact ⟨b :: l, congrArg (· + 1) hlength, isChain_cons_cons.mpr ⟨hab, hchain⟩⟩

/-- Every node of a walk reaches the nodes behind it. -/
theorem pairwise_transGen_of_walk (h : IsChain R l) : l.Pairwise (Relation.TransGen R) :=
  isChain_iff_pairwise.mp (h.imp fun _ _ => .single)

/-- A walk that meets a node twice reaches a cycle already from its second node. -/
theorem reachesCycle_of_not_nodup (h : IsChain R (a :: b :: l)) (hdup : ¬ (a :: b :: l).Nodup) :
    ReachesCycle R b := by
  rw [nodup_iff_sublist, not_forall] at hdup
  obtain ⟨c, hc⟩ := hdup
  have hpairs := pairwise_transGen_of_walk h
  have hcycle : Relation.TransGen R c c := pairwise_pair.mp (hpairs.sublist (not_not.mp hc))
  -- Of the two places of the node, the second one is not the start of the walk.
  have hmem : c ∈ b :: l := singleton_sublist.mp (not_not.mp hc).tail
  rcases mem_cons.mp hmem with rfl | hmem
  · exact ⟨c, .refl, hcycle⟩
  · exact ⟨c, (rel_of_pairwise_cons (pairwise_cons.mp hpairs).2 hmem).to_reflTransGen, hcycle⟩

/-- From each node of a walk but the last one a step leads on. -/
theorem exists_step_of_walk (h : IsChain R l) {x : α} (hx : x ∈ l.dropLast) : ∃ y, R x y := by
  induction l with
  | nil => cases hx
  | cons a l ih =>
      cases l with
      | nil => cases hx
      | cons b l =>
          obtain ⟨hab, h⟩ := isChain_cons_cons.mp h
          rcases mem_cons.mp hx with rfl | hx
          · exact ⟨b, hab⟩
          · exact ih h hx

/-- A walk reaches a cycle behind its first step if it has more steps than there are places from
which a step leads on. -/
theorem reachesCycle_of_long_walk {places : List α} (hin : ∀ x y, R x y → x ∈ places)
    (h : IsChain R (a :: b :: l)) (hlength : places.length ≤ l.length) : ReachesCycle R b := by
  by_contra hno
  have hnodup : (a :: b :: l).Nodup := not_not.mp fun hdup => hno (reachesCycle_of_not_nodup h hdup)
  have hinside : (a :: b :: l).dropLast ⊆ places := fun x hx => by
    obtain ⟨y, hxy⟩ := exists_step_of_walk h hx
    exact hin x y hxy
  have hle := ((hnodup.sublist (dropLast_sublist _)).subperm hinside).length_le
  simp only [length_dropLast, length_cons] at hle
  omega

/-- So does a walk of more steps than there are handles from which a step leads on. -/
theorem reachesCycle_of_walk {R : NodeId → NodeId → Prop} {size : Nat} {a b : NodeId}
    {l : List NodeId} (hin : ∀ x y, R x y → x.index < size) (h : IsChain R (a :: b :: l))
    (hlength : size ≤ l.length) : ReachesCycle R b := by
  have hplaces : ∀ x y, R x y → x ∈ (range size).map NodeId.mk := fun x y hxy =>
    mem_map.mpr ⟨x.index, mem_range.mpr (hin x y hxy), rfl⟩
  exact reachesCycle_of_long_walk hplaces h (by rwa [length_map, length_range])

end QueryPlan
