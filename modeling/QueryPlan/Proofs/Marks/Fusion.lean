import QueryPlan.Proofs.LiveOrder.Pipeline
import QueryPlan.Proofs.Marks.Passes
/-!
# QueryPlan.Proofs.Marks.Fusion

**What is left of a chain.** Fusing a chain changes the rest of a plan at one place only: what read
the last node of the chain reads the compound (`Plan.Fused.reads`). Nothing outside of the chain
reads another node of it, and nothing that stays live looks any different in a view. So a fact about
nodes and what they read is a matter of the last node and the compound.

The passes are run by one induction (`Plan.Ordered.optimize_induct`): a fact about plans that every
pass keeps holds of the optimized plan.
-/

namespace QueryPlan

open List

variable {κ : Type} {v : View κ}

namespace Plan

variable {p q : Plan} {n last : NodeId} {ids joinRoots : List NodeId} {stage : ChainStage}

/-- A compound has taken the place of a chain. -/
structure Fused (p q : Plan) (ids : List NodeId) (last : NodeId) (c : Compound) : Prop where
  op_new : q.op p.nextId = .compound c
  size_le : p.arena.size ≤ q.arena.size
  live : ∀ n ∈ q.order, n ≠ p.nextId → n ∈ p.order ∧ n ∉ ids
  /-- What stays reads the compound in place of the last node. -/
  node_eq : ∀ n ∈ p.order, n ∉ ids →
    ∃ columns, q.node n = (p.node n).moved last p.nextId none columns
  apart : ∀ n ∈ p.order, n ∉ ids → ∀ i ∈ p.inputs n, i ≠ last → i ∉ ids

/-- The last node of a chain completes its compound. -/
theorem exists_fuseNode_last {f : Fusion} (hf : ids.foldlM p.fuseNode .start = .ok f)
    (hlast : ids.getLast? = some last) : ∃ g, p.fuseNode g last = .ok f := by
  rw [(dropLast_append_getLast? last hlast).symm] at hf
  obtain ⟨g, -, hg⟩ := Result.foldlM_concat_eq_ok.mp hf
  exact ⟨g, hg⟩

/-- What is live once the chain is gone. -/
theorem Chained.mem_withoutChain {pre post : List NodeId} (h : p.Chained joinRoots ids stage)
    (hp : p.Ordered p.order) (hlast : ids.getLast? = some last)
    (horder : p.order = pre ++ last :: post) :
    n ∈ p.withoutChain ids pre post ↔ (n = p.nextId ∨ n ∈ p.order) ∧ n ∉ ids := by
  rw [h.withoutChain_eq hp hlast horder, horder, mem_filter, append_cons,
    mem_middle_iff]
  simp

theorem Ordered.nodup_withoutChain {pre post : List NodeId} (hp : p.Ordered p.order)
    (horder : p.order = pre ++ last :: post) : (p.withoutChain ids pre post).Nodup := by
  refine .filter _ (nodup_middle.mpr (nodup_cons.mpr ⟨fun hmem => ?_, ?_⟩))
  · exact ne_nextId (hp.inArena _ (horder ▸ mem_middle_iff.mpr (.inr hmem))) rfl
  · exact (nodup_cons.mp (nodup_middle.mp (horder ▸ hp.nodup))).2

theorem Ordered.fused {next next' : Nat} {first : NodeId} (hp : p.Ordered p.order)
    (hchain : p.Chained joinRoots ids stage) (hlast : ids.getLast? = some last)
    (hq : p.replaceChain ids first last next = .ok (q, next')) :
    ∃ f input, ids.foldlM p.fuseNode .start = .ok f ∧ p.inputs first = [input] ∧
      Fused p q ids last f.compound := by
  obtain ⟨f, input, buildId, pre, post, hf, hinput, horder, hq⟩ := replaceChain_eq_ok hq
  have hids : ids = ids.dropLast ++ [last] := (dropLast_append_getLast? last hlast).symm
  generalize hnode : Node.make buildId [input] (.compound f.compound) = node at hq
  generalize hr : ({ p.alloc node with order := p.withoutChain ids pre post } : Plan) = r
  have hq : r.replaceInputEverywhere last p.nextId none = .ok q := by rw [← hr]; exact hq
  have hrNode : r.node = (p.alloc node).node := by rw [← hr]; rfl
  have hmem : ∀ n, n ∈ r.order ↔ (n = p.nextId ∨ n ∈ p.order) ∧ n ∉ ids := fun n => by
    rw [← hr]
    exact hchain.mem_withoutChain hp hlast horder
  have hin : ∀ n ∈ r.order, n.index < r.arena.size := by
    intro n hn
    rw [← hr]
    change n.index < (p.alloc node).arena.size
    rw [size_alloc]
    rcases ((hmem n).mp hn).1 with rfl | hn
    · exact Nat.lt_succ_self _
    · exact Nat.lt_succ_of_lt (hp.inArena n hn)
  have hred := replaceInputEverywhere_rewired hq (hr ▸ hp.nodup_withoutChain horder) hin
  refine ⟨f, input, hf, hinput, ?_, ?_, fun n hn hne => ?_, fun n hn hnids => ?_,
    fun n hn hnids i hi hne hmem => ?_⟩
  · rw [hred.op_other (by simp), Plan.op, hrNode, node_alloc_self, ← hnode]
    rfl
  · rw [hred.size_eq, ← hr]
    exact Nat.le_of_lt (by simp)
  · rw [hred.order_eq, hmem] at hn
    exact ⟨hn.1.resolve_left hne, hn.2⟩
  · have hne : n ≠ p.nextId := ne_nextId (hp.inArena n hn)
    have hchanged : n ∈ r.order.filter fun n => n != p.nextId :=
      mem_filter.mpr ⟨(hmem n).mpr ⟨.inr hn, hnids⟩, by simpa using hne⟩
    obtain ⟨columns, hmoved⟩ := hred.node_moved n hchanged
    exact ⟨columns, by rw [hmoved, hrNode, node_alloc_of_ne _ hne]⟩
  · rw [hids, mem_append, mem_singleton] at hmem
    exact hnids (hchain.reader_mem (hmem.resolve_right hne) hn hi)

namespace Fused

variable {c : Compound} (h : Fused p q ids last c)
include h

theorem see_eq (hn : n ∈ p.order) (hnids : n ∉ ids) : v.see n (q.op n) = v.see n (p.op n) := by
  obtain ⟨columns, hmoved⟩ := h.node_eq n hn hnids
  rw [Plan.op, hmoved, v.see_moved]
  rfl

/-- What stays reads what it read, or the compound in place of the last node. -/
theorem reads (hn : n ∈ q.order) (hne : n ≠ p.nextId) {i : NodeId} (hread : p.inputs n = [i]) :
    (i ∉ ids ∧ q.inputs n = [i]) ∨ (i = last ∧ q.inputs n = [p.nextId]) := by
  obtain ⟨hlive, hnids⟩ := h.live n hn hne
  obtain ⟨columns, hmoved⟩ := h.node_eq n hlive hnids
  have hinputs : q.inputs n = [last.replaced p.nextId i] := by
    rw [inputs, hmoved, Node.inputs_moved]
    exact (congrArg (map _) hread).trans (map_singleton ..)
  by_cases hi : i = last
  · exact .inr ⟨hi, by rw [hinputs, hi, NodeId.replaced_self]⟩
  · refine .inl ⟨h.apart n hlive hnids i (hread ▸ mem_singleton_self i) hi, ?_⟩
    rw [hinputs, NodeId.replaced_of_ne _ hi]

end Fused

/-- What the fusion of one chain keeps, the fusion of all chains keeps. -/
theorem Ordered.fuseChains_keeps {motive : Plan → Prop} {next next' : Nat}
    (hp : p.Ordered p.order) (start : motive p)
    (step : ∀ r s ids stage first last n n', r.Ordered r.order → motive r →
      r.Chained joinRoots ids stage → ids.head? = some first → ids.getLast? = some last →
      r.replaceChain ids first last n = .ok (s, n') → motive s)
    (hq : p.fuseChains joinRoots next = .ok (q, next')) : motive q := by
  refine (fuseChains_induct (I := fun r => r.Ordered r.order ∧ motive r) ?_ hp ⟨hp, start⟩ hq).2.2
  intro r s ids stage first last n n' hchain _ hfirst hlast hs ⟨hr, hmotive⟩
  exact ⟨(hr.replaceChain hchain hfirst hlast hs).1,
    step r s ids stage first last n n' hr hmotive hchain hfirst hlast hs⟩

/-! ### All passes -/

/-- What every pass keeps holds of the optimized plan. -/
theorem Ordered.optimize_induct {motive : Plan → Prop} {settings : Settings} {next next' : Nat}
    (hp : p.Ordered p.order) (start : motive p)
    (step : ∀ pass r s n n', r.Ordered r.order → motive r →
      Pass.apply pass r n = .ok (s, n') → motive s)
    (hq : p.optimize settings next = .ok (q, next')) : motive q := by
  have hpasses : ∀ {passes : List Pass} {r s : Plan} {n n' : Nat}, r.Ordered r.order → motive r →
      r.applyPasses passes n = .ok (s, n') → s.Ordered s.order ∧ motive s :=
    fun hr hmotive hs => Fresh.foldlM_keeps (motive := fun r => r.Ordered r.order ∧ motive r) hs
      ⟨hr, hmotive⟩ fun pass _ r s n n' ⟨hr, hmotive⟩ hs =>
        ⟨Pass.ordered hr hs, step pass r s n n' hr hmotive hs⟩
  rw [hp.optimize_eq] at hq
  obtain ⟨r, n, hr, hq⟩ := Fresh.bind_eq_ok.mp hq
  obtain ⟨s, m, hs, hq⟩ := Fresh.bind_eq_ok.mp hq
  obtain ⟨hrOrdered, hrMotive⟩ := hpasses hp start hr
  obtain ⟨hsOrdered, hsMotive⟩ := hpasses hrOrdered hrMotive hs
  exact (hpasses hsOrdered hsMotive hq).2

end Plan

end QueryPlan
