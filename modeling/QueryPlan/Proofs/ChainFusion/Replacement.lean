import QueryPlan.Proofs.Marks.Fusion
import QueryPlan.Proofs.Plan.Renaming
import Mathlib.Data.List.Chain
/-!
# QueryPlan.Proofs.ChainFusion.Replacement

**One chain gives way to a compound.** The compound stands where the last node of the chain did and
reads what the first one read. The other nodes of the chain are gone, and everything else is renamed
(`Plan.Replaced`).

Two nodes that a chain would have taken one after the other can only be new to a plan if a reader of
the first one went. But what goes reads another node of its chain, and what its first node read the
compound reads. So whatever is fusable afterwards was fusable before, and outside of the chain
(`Replaced.fusable`).
-/

namespace QueryPlan

open List

namespace Plan

variable {p q : Plan} {ids joinRoots : List NodeId} {first last x y n : NodeId}
  {stage : ChainStage} {next next' : Nat}

/-- A compound stands in the place of a chain. -/
structure Replaced (p q : Plan) (ids : List NodeId) (first last : NodeId) : Prop where
  order_eq : q.order =
    (p.order.filter fun n => !ids.dropLast.contains n).map (last.replaced p.nextId)
  size_eq : q.arena.size = p.arena.size + 1
  op_new : ∃ c, q.op p.nextId = .compound c
  inputs_new : ∃ input, p.inputs first = [input] ∧ q.inputs p.nextId = [input]
  node_eq : ∀ n ∈ p.order, n ∉ ids → q.node n = (p.node n).renamed (last.replaced p.nextId)
  node_other : ∀ n, n ∈ ids ∨ n ∉ p.order → n ≠ p.nextId → q.node n = p.node n

theorem Chained.withoutChain_eq_map {pre post : List NodeId}
    (hchain : p.Chained joinRoots ids stage) (hp : p.Ordered p.order)
    (hlast : ids.getLast? = some last) (horder : p.order = pre ++ last :: post) :
    p.withoutChain ids pre post =
      (p.order.filter fun n => !ids.dropLast.contains n).map (last.replaced p.nextId) := by
  have hnodup := hp.nodup
  rw [horder, nodup_middle, nodup_cons, mem_append, not_or] at hnodup
  have hids := hchain.nodup hp
  rw [← dropLast_append_getLast? last hlast, nodup_append] at hids
  have hlastStays : (!ids.dropLast.contains last) = true := by
    simpa using fun hmem => hids.2.2 last hmem last (mem_singleton_self last) rfl
  have hnewStays : (!ids.dropLast.contains p.nextId) = true := by
    simpa using fun hmem => ne_nextId (hp.inArena _ (hchain.subset (dropLast_subset _ hmem))) rfl
  have hsame : ∀ {l : List NodeId}, last ∉ l →
      (l.filter fun n => !ids.dropLast.contains n).map (last.replaced p.nextId) =
        l.filter fun n => !ids.dropLast.contains n := fun hl =>
    NodeId.map_replaced_of_not_mem _ fun hmem => hl (mem_filter.mp hmem).1
  rw [withoutChain, horder, filter_append, filter_append, map_append, hsame hnodup.1.1,
    filter_cons_of_pos (p := fun n => !ids.dropLast.contains n) hlastStays,
    filter_cons_of_pos (p := fun n => !ids.dropLast.contains n) hnewStays, map_cons,
    hsame hnodup.1.2, NodeId.replaced_self]

theorem Ordered.replaced (hp : p.Ordered p.order) (hchain : p.Chained joinRoots ids stage)
    (hlast : ids.getLast? = some last)
    (hq : p.replaceChain ids first last next = .ok (q, next')) : Replaced p q ids first last := by
  obtain ⟨f, input, buildId, pre, post, hf, hinput, horder, hq⟩ := replaceChain_eq_ok hq
  generalize hnode : Node.make buildId [input] (.compound f.compound) = node at hq
  generalize hr : ({ p.alloc node with order := p.withoutChain ids pre post } : Plan) = r
  have hq : r.replaceInputEverywhere last p.nextId none = .ok q := by rw [← hr]; exact hq
  have hrNode : r.node = (p.alloc node).node := by rw [← hr]; rfl
  have hrSize : r.arena.size = p.arena.size + 1 := by
    rw [← hr]
    exact size_alloc node
  have hmem : ∀ n, n ∈ r.order ↔ (n = p.nextId ∨ n ∈ p.order) ∧ n ∉ ids := fun n => by
    rw [← hr]
    exact hchain.mem_withoutChain hp hlast horder
  have hin : ∀ n ∈ r.order, n.index < r.arena.size := by
    intro n hn
    rw [hrSize]
    rcases ((hmem n).mp hn).1 with rfl | hn
    · exact Nat.lt_succ_self _
    · exact Nat.lt_succ_of_lt (hp.inArena n hn)
  have hnew : (r.op p.nextId).isJoin = false := by
    rw [Plan.op, hrNode, node_alloc_self, ← hnode]
    rfl
  have hred := replaceInputEverywhere_renamed hq (hr ▸ hp.nodup_withoutChain horder) hin hnew
  have hself : q.node p.nextId = node := by
    rw [hred.node_other _ (by simp), hrNode, node_alloc_self]
  refine ⟨?_, hred.size_eq.trans hrSize, ?_, ?_, fun n hn hnids => ?_, fun n hgone hne => ?_⟩
  · rw [hred.order_eq, ← hchain.withoutChain_eq_map hp hlast horder, ← hr]
  · rw [Plan.op, hself, ← hnode]
    exact ⟨_, rfl⟩
  · refine ⟨input, hinput, ?_⟩
    rw [inputs, hself, ← hnode]
    rfl
  · have hne : n ≠ p.nextId := ne_nextId (hp.inArena n hn)
    rw [hred.node_eq n (mem_filter.mpr ⟨(hmem n).mpr ⟨.inr hn, hnids⟩, by simpa using hne⟩), hrNode,
      node_alloc_of_ne _ hne]
  · rw [hred.node_other n, hrNode, node_alloc_of_ne _ hne]
    intro hn
    obtain ⟨hn, hnids⟩ := (hmem n).mp (mem_filter.mp hn).1
    exact hgone.elim hnids fun hdead => hdead (hn.resolve_left hne)

/-! ### Stages and renamed nodes -/

theorem nextStage?_of_renamed {σ : NodeId → NodeId} (h : q.node n = (p.node n).renamed σ)
    (stage : ChainStage) :
    q.nextStage? joinRoots stage n = p.nextStage? joinRoots stage n := by
  have hop : q.op n = (p.op n).mapExprs _ := congrArg Node.op h
  unfold nextStage?
  rw [hop]
  cases p.op n with
  | project j =>
      have hwindow : (j.exprs.map (Expr.mapColumns (ColumnRef.renamed σ))).any Expr.isWindow =
          j.hasWindow := by
        rw [any_map]
        exact congrArg _ (funext (Expr.isWindow_mapColumns _))
      cases stage with
      | filtered =>
          change (if (j.exprs.map _).any Expr.isWindow then none else _) = _
          rw [hwindow]
      | _ => rfl
  | _ => cases stage <;> rfl

/-! ### What a chain reads -/

/-- Each node of a chain is the only reader of the one before it. -/
theorem Chained.links (hchain : p.Chained joinRoots ids stage) : ids.IsChain p.OnlyReader := by
  induction hchain with
  | nil => exact .nil
  | next _ _ hlink _ ih | close _ _ hlink _ _ ih =>
      refine ih.append (.singleton _) fun last hlast y hy => ?_
      obtain rfl := Option.some.inj hy
      exact hlink last hlast

/-- A node of a chain reads the one before it and nothing else. -/
theorem Chained.inputs_eq (hchain : p.Chained joinRoots ids stage) (hp : p.Arranged p.order)
    (hn : n ∈ ids) : ids.head? = some n ∨ ∃ x ∈ ids, p.inputs n = [x] := by
  obtain ⟨front, back, rfl⟩ := append_of_mem hn
  rcases eq_nil_or_concat' front with rfl | ⟨front, x, rfl⟩
  · exact .inl rfl
  · have hread : p.OnlyReader x n := (isChain_append.mp hchain.links).2.2 x (by simp) n rfl
    have harity := hp.arity n (hchain.subset hn)
    rw [(hchain.unary n hn).1] at harity
    obtain ⟨i, hi⟩ := Arity.exactly_one_admits harity
    exact .inr ⟨x, by simp, hread.inputs_eq hi⟩

/-! ### What is left to fuse -/

/-- A chain may begin with a node and go on with another one, its only reader. -/
structure Fusable (joinRoots : List NodeId) (p : Plan) (x y : NodeId) : Prop where
  left : x ∈ p.order
  right : y ∈ p.order
  inputs_eq : p.inputs y = [x]
  only : ∀ m ∈ p.order, x ∈ p.inputs m → m = y
  goesOn : ∃ s t, p.nextStage? joinRoots .start x = some s ∧ p.nextStage? joinRoots s y = some t

/-- Chains have no compounds. -/
theorem nextStage?_of_compound {c : Compound} (hop : p.op n = .compound c) :
    p.nextStage? joinRoots stage n = none := by
  unfold nextStage?
  rw [hop]
  cases stage <;> rfl

theorem Chained.op_ne_compound (hchain : p.Chained joinRoots ids stage) {c : Compound} :
    ∀ n ∈ ids, p.op n ≠ .compound c := by
  intro n hn hop
  rcases hchain.operator n hn with ⟨_, hop'⟩ | ⟨_, hop'⟩ | ⟨_, hop'⟩ <;> cases hop.symm.trans hop'

namespace Replaced

variable (f : Replaced p q ids first last) (hp : p.Arranged p.order)
  (hchain : p.Chained joinRoots ids stage) (hlast : ids.getLast? = some last)
include f hp hchain hlast

/-- What is live once the chain is gone. -/
theorem mem_order : n ∈ q.order ↔ n = p.nextId ∨ n ∈ p.order ∧ n ∉ ids := by
  obtain ⟨pre, post, horder⟩ := append_of_mem (hchain.subset (mem_of_getLast? hlast))
  have hnew : p.nextId ∉ ids := fun hmem => ne_nextId (hp.inArena _ (hchain.subset hmem)) rfl
  rw [f.order_eq, ← hchain.withoutChain_eq_map hp.toOrdered hlast horder,
    hchain.mem_withoutChain hp.toOrdered hlast horder, or_and_right]
  exact or_congr_left (and_iff_left_of_imp fun hn => hn ▸ hnew)

/-- Every operator has as many inputs as it takes. -/
theorem arranged (hq : q.Ordered q.order) : q.Arranged q.order where
  toOrdered := hq
  arity n hn := by
    rcases (f.mem_order hp hchain hlast).mp hn with rfl | ⟨hn, hnids⟩
    · obtain ⟨c, hop⟩ := f.op_new
      obtain ⟨input, -, hinputs⟩ := f.inputs_new
      rw [hop, hinputs]
      rfl
    · rw [Plan.op, inputs, f.node_eq n hn hnids, Node.op_renamed, Node.inputs_renamed,
        Operator.arity_mapExprs, length_map]
      exact hp.arity n hn

omit hchain in
/-- What stays reads a node outside of the chain if and only if it did before. -/
theorem mem_inputs_iff (hn : n ∈ p.order) (hnids : n ∉ ids) (hx : x ∈ p.order) (hxids : x ∉ ids) :
    x ∈ q.inputs n ↔ x ∈ p.inputs n := by
  have hxlast : x ≠ last := fun hxlast => hxids (hxlast ▸ mem_of_getLast? hlast)
  rw [inputs, f.node_eq n hn hnids, Node.inputs_renamed, mem_map]
  constructor
  · rintro ⟨i, hi, heq⟩
    by_cases hilast : i = last
    · rw [hilast, NodeId.replaced_self] at heq
      exact absurd heq.symm (ne_nextId (hp.inArena x hx))
    · rw [NodeId.replaced_of_ne _ hilast] at heq
      exact heq ▸ hi
  · exact fun hread => ⟨x, hread, NodeId.replaced_of_ne _ hxlast⟩

/-- The only reader of a node was its only reader before. -/
theorem onlyReader (hfirst : ids.head? = some first) (hx : x ∈ p.order) (hxids : x ∉ ids)
    (hy : y ∈ p.order) (hyids : y ∉ ids) (h : q.OnlyReader x y) : p.OnlyReader x y := by
  have hlive : ∀ n, n ∈ q.order ↔ n = p.nextId ∨ n ∈ p.order ∧ n ∉ ids := fun n =>
    f.mem_order hp hchain hlast
  refine ⟨(f.mem_inputs_iff hp hlast hy hyids hx hxids).mp h.1, fun m hm hread => ?_⟩
  by_cases hmids : m ∈ ids
  · rcases hchain.inputs_eq hp hmids with hhead | ⟨i, hi, hinputs⟩
    · -- The compound reads what the first node did.
      obtain ⟨input, hinput, hnew⟩ := f.inputs_new
      obtain rfl := Option.some.inj (hhead.symm.trans hfirst)
      have hxnew : x ∈ q.inputs p.nextId := by rwa [hnew, ← hinput]
      exact absurd (h.2 _ ((hlive _).mpr (.inl rfl)) hxnew).symm (ne_nextId (hp.inArena y hy))
    · rw [hinputs, mem_singleton] at hread
      exact absurd (hread ▸ hi) hxids
  · exact h.2 m ((hlive m).mpr (.inr ⟨hm, hmids⟩))
      ((f.mem_inputs_iff hp hlast hm hmids hx hxids).mpr hread)

/-- Whatever is fusable was fusable before, and lies outside of the chain. -/
theorem fusable (hfirst : ids.head? = some first) (h : q.Fusable joinRoots x y) :
    p.Fusable joinRoots x y ∧ x ∉ ids ∧ y ∉ ids := by
  obtain ⟨c, hop⟩ := f.op_new
  have hlive : ∀ {n stage next}, n ∈ q.order → q.nextStage? joinRoots stage n = some next →
      n ∈ p.order ∧ n ∉ ids := fun hn hnext => by
    refine ((f.mem_order hp hchain hlast).mp hn).resolve_left ?_
    rintro rfl
    rw [nextStage?_of_compound hop] at hnext
    cases hnext
  obtain ⟨s, t, hs, ht⟩ := h.goesOn
  obtain ⟨hx, hxids⟩ := hlive h.left hs
  obtain ⟨hy, hyids⟩ := hlive h.right ht
  have honly := f.onlyReader hp hchain hlast hfirst hx hxids hy hyids
    ⟨h.inputs_eq ▸ mem_singleton_self x, h.only⟩
  refine ⟨⟨hx, hy, ?_, honly.2, s, t, ?_, ?_⟩, hxids, hyids⟩
  · have hlength : (p.inputs y).length = 1 := by
      have hinputs := congrArg length h.inputs_eq
      rwa [inputs, f.node_eq y hy hyids, Node.inputs_renamed, length_map] at hinputs
    obtain ⟨i, hi⟩ := length_eq_one_iff.mp hlength
    exact honly.inputs_eq hi
  · rw [← nextStage?_of_renamed (f.node_eq x hx hxids), hs]
  · rw [← nextStage?_of_renamed (f.node_eq y hy hyids), ht]

end Replaced

end Plan

end QueryPlan
