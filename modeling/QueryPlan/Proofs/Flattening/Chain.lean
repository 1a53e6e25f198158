import QueryPlan.Pass.JoinChains
import QueryPlan.Proofs.Plan.Redirection
import QueryPlan.Proofs.Plan.Uses
import Mathlib.Data.List.Chain
/-!
# QueryPlan.Proofs.Flattening.Chain

**Chains of joins.** A chain follows left inputs as long as they are joins that nothing else reads
(`Plan.JoinChain`). With the filter above it, if that is taken in, each of its nodes but the first
is read by the one before it only (`Plan.Retiring`), so the chain may leave a plan from the top
down.
-/

namespace QueryPlan

open List

namespace Plan

variable {p q : Plan} {top left leftmost root : NodeId} {joins : List NodeId}

/-- The joins of a chain, topmost first, over a leftmost relation. -/
inductive JoinChain (p : Plan) : NodeId → List NodeId → NodeId → Prop
  | single {top leftmost : NodeId} : (p.inputs top).head? = some leftmost →
    JoinChain p top [top] leftmost
  | more {top left leftmost : NodeId} {below : List NodeId} :
    (p.inputs top).head? = some left → p.isBinaryJoin left = true → p.useCount left = 1 →
    JoinChain p left below leftmost → JoinChain p top (top :: below) leftmost

theorem input_zero_eq_ok {id : NodeId} :
    (p.node id).input 0 = .ok left ↔ (p.inputs id).head? = some left := by
  rw [Node.input, Result.ofOption_eq_ok, ← head?_eq_getElem?]
  rfl

/-- The descent from a join finds a chain. -/
theorem chainBelow_eq_ok {fuel : Nat} (h : p.chainBelow fuel top = .ok (joins, leftmost)) :
    p.JoinChain top joins leftmost := by
  induction fuel generalizing top joins with
  | zero =>
      obtain ⟨left, hleft, h⟩ := Result.bind_eq_ok.mp h
      cases Result.pure_eq_ok.mp h
      exact .single (input_zero_eq_ok.mp hleft)
  | succ fuel ih =>
      obtain ⟨left, hleft, h⟩ := Result.bind_eq_ok.mp h
      split at h
      · next hcond =>
        rw [Bool.and_eq_true, beq_iff_eq] at hcond
        obtain ⟨⟨below, leftmost'⟩, hbelow, h⟩ := Result.bind_eq_ok.mp h
        cases Result.pure_eq_ok.mp h
        exact .more (input_zero_eq_ok.mp hleft) hcond.1 hcond.2 (ih hbelow)
      · cases Result.pure_eq_ok.mp h
        exact .single (input_zero_eq_ok.mp hleft)

/-- The top of a chain is a join, or a filter over one. The filter is taken in if nothing else
reads the join. -/
theorem chainTop_eq_ok {filter : Option NodeId} (h : p.chainTop root = .ok (filter, top)) :
    (p.isFilter root = true ∧ p.inputs root = [top] ∧
      filter = if p.useCount top = 1 then some root else none) ∨
    (p.isFilter root = false ∧ filter = none ∧ top = root) := by
  unfold chainTop at h
  split at h
  · next hroot =>
    obtain ⟨join, hjoin, h⟩ := Result.bind_eq_ok.mp h
    cases Result.pure_eq_ok.mp h
    refine .inl ⟨hroot, Node.singleInput_eq_ok.mp hjoin, ?_⟩
    simp
  · next hroot =>
    cases h
    exact .inr ⟨by simpa using hroot, rfl, rfl⟩

namespace JoinChain

theorem exists_cons (h : p.JoinChain top joins leftmost) : ∃ below, joins = top :: below := by
  cases h with
  | single _ => exact ⟨_, rfl⟩
  | more _ _ _ _ => exact ⟨_, rfl⟩

theorem subset (h : p.JoinChain top joins leftmost) {l : List NodeId} (hp : p.Ordered l)
    (htop : top ∈ l) : joins ⊆ l := by
  induction h with
  | single _ => simpa using htop
  | more hleft _ _ _ ih =>
      exact cons_subset.mpr ⟨htop, ih (hp.mem_of_input htop (mem_of_head? hleft))⟩

/-- The leftmost relation stands before the joins of a chain. -/
theorem leftmost_before (h : p.JoinChain top joins leftmost) {l : List NodeId} (hp : p.Ordered l)
    (htop : top ∈ l) : ∀ x ∈ joins, [leftmost, x] <+ l := by
  induction h with
  | single hleft =>
      intro x hx
      rw [mem_singleton.mp hx]
      exact hp.before _ htop _ (mem_of_head? hleft)
  | more hleft _ _ hbelow ih =>
      have hpair := hp.before _ htop _ (mem_of_head? hleft)
      have ih := ih (mem_left hpair)
      intro x hx
      rcases mem_cons.mp hx with rfl | hx
      · obtain ⟨below, rfl⟩ := hbelow.exists_cons
        exact pair_sublist_trans hp.nodup (ih _ mem_cons_self) hpair
      · exact ih x hx

/-- A chain lists its joins against the order. -/
theorem pairwise (h : p.JoinChain top joins leftmost) {l : List NodeId} (hp : p.Ordered l)
    (htop : top ∈ l) : joins.Pairwise fun a b => [b, a] <+ l := by
  induction h with
  | single _ => exact pairwise_singleton _ _
  | more hleft _ _ hbelow ih =>
      have hpair := hp.before _ htop _ (mem_of_head? hleft)
      have ih := ih (mem_left hpair)
      refine pairwise_cons.mpr ⟨fun x hx => ?_, ih⟩
      obtain ⟨below, rfl⟩ := hbelow.exists_cons
      rcases mem_cons.mp hx with rfl | hx
      · exact hpair
      · exact pair_sublist_trans hp.nodup (rel_of_pairwise_cons ih hx) hpair

/-- Every join of a chain but the topmost is a binary join with one use. -/
theorem of_mem_tail (h : p.JoinChain top joins leftmost) :
    ∀ x ∈ joins.tail, p.isBinaryJoin x = true ∧ p.useCount x = 1 := by
  induction h with
  | single _ => exact nofun
  | more _ hjoin huse hbelow ih =>
      obtain ⟨below, rfl⟩ := hbelow.exists_cons
      intro x hx
      rcases mem_cons.mp hx with rfl | hx
      · exact ⟨hjoin, huse⟩
      · exact ih x hx

end JoinChain

/-- Nodes of which each but the first is read by nothing but the one before it. -/
def Retiring (p : Plan) (olds : List NodeId) : Prop :=
  olds.IsChain fun a b => b ∈ p.inputs a ∧ ∀ n ∈ p.order, b ∈ p.inputs n → n = a

theorem JoinChain.retiring (h : p.JoinChain top joins leftmost) (hp : p.Ordered p.order)
    (htop : top ∈ p.order) : p.Retiring joins := by
  induction h with
  | single _ => exact .singleton _
  | more hleft _ huse hbelow ih =>
      have hread := mem_of_head? hleft
      have ih := ih (hp.mem_of_input htop hread)
      obtain ⟨below, rfl⟩ := hbelow.exists_cons
      exact .cons_cons ⟨hread, fun n hn hnread => reader_unique huse hn hnread htop hread⟩ ih

/-- A reader of a node that is to retire is the one before it. -/
theorem Retiring.mem_of_reads {done rest : List NodeId} {first o n : NodeId}
    (h : p.Retiring (first :: (done ++ o :: rest))) (hn : n ∈ p.order) (hread : o ∈ p.inputs n) :
    n ∈ first :: done := by
  rw [← cons_append] at h
  rcases eq_nil_or_concat' (first :: done) with hnil | ⟨front, a, hfront⟩
  · cases hnil
  · rw [hfront] at h ⊢
    rw [append_assoc, singleton_append] at h
    rw [(isChain_cons_cons.mp h.right_of_append).1.2 n hn hread]
    simp

/-! ### The chain below a root -/

/-- The chain below a root: a filter that is taken in, the joins and the leftmost relation. -/
structure ChainAt (p : Plan) (root : NodeId) (filter : Option NodeId) (topJoin : NodeId)
    (joins : List NodeId) (leftmost : NodeId) : Prop where
  top : p.chainTop root = .ok (filter, topJoin)
  chain : p.JoinChain topJoin joins leftmost

/-- The nodes that a flattened chain replaces are the one at the top and others. -/
theorem ChainAt.exists_cons {filter : Option NodeId} {topJoin : NodeId}
    (h : p.ChainAt root filter topJoin joins leftmost) :
    ∃ below, filter.toList ++ joins = filter.getD topJoin :: below := by
  obtain ⟨below, rfl⟩ := h.chain.exists_cons
  cases filter with
  | none => exact ⟨below, rfl⟩
  | some f => exact ⟨_, rfl⟩

section

variable {filter : Option NodeId} {topJoin : NodeId}
  (h : p.ChainAt root filter topJoin joins leftmost) (hp : p.Ordered p.order)
  (hroot : root ∈ p.order)
include h

/-- A filter that is taken in is the root, and nothing else reads the topmost join. -/
theorem ChainAt.of_filter {f : NodeId} (hf : filter = some f) :
    f = root ∧ p.isFilter root = true ∧ p.inputs root = [topJoin] ∧ p.useCount topJoin = 1 := by
  rcases chainTop_eq_ok h.top with ⟨hfilter, hinputs, heq⟩ | ⟨-, hnone, -⟩
  · rw [hf] at heq
    split at heq
    · next huse => exact ⟨Option.some.inj heq, hfilter, hinputs, huse⟩
    · cases heq
  · rw [hf] at hnone
    cases hnone

include hp hroot

theorem ChainAt.topJoin_mem : topJoin ∈ p.order := by
  rcases chainTop_eq_ok h.top with ⟨-, hinputs, -⟩ | ⟨-, -, rfl⟩
  · exact hp.mem_of_input hroot (hinputs ▸ mem_singleton_self _)
  · exact hroot

theorem ChainAt.subset : filter.toList ++ joins ⊆ p.order := by
  refine append_subset.mpr ⟨fun f hf => ?_, h.chain.subset hp (h.topJoin_mem hp hroot)⟩
  exact (h.of_filter (Option.mem_toList.mp hf)).1 ▸ hroot

theorem ChainAt.retiring : p.Retiring (filter.toList ++ joins) := by
  have htop := h.topJoin_mem hp hroot
  have hjoins := h.chain.retiring hp htop
  cases filter with
  | none => exact hjoins
  | some f =>
      obtain ⟨rfl, -, hinputs, huse⟩ := h.of_filter rfl
      obtain ⟨below, rfl⟩ := h.chain.exists_cons
      have hread : topJoin ∈ p.inputs f := hinputs ▸ mem_singleton_self _
      exact .cons_cons ⟨hread, fun n hn hnread => reader_unique huse hn hnread hroot hread⟩ hjoins

theorem ChainAt.pairwise :
    (filter.toList ++ joins).Pairwise fun a b => [b, a] <+ p.order := by
  have htop := h.topJoin_mem hp hroot
  have hjoins := h.chain.pairwise hp htop
  cases filter with
  | none => exact hjoins
  | some f =>
      obtain ⟨rfl, -, hinputs, -⟩ := h.of_filter rfl
      have hpair := hp.before f hroot topJoin (hinputs ▸ mem_singleton_self _)
      refine pairwise_cons.mpr ⟨fun x hx => ?_, hjoins⟩
      obtain ⟨below, rfl⟩ := h.chain.exists_cons
      rcases mem_cons.mp hx with rfl | hx
      · exact hpair
      · exact pair_sublist_trans hp.nodup (rel_of_pairwise_cons hjoins hx) hpair

theorem ChainAt.leftmost_before : ∀ x ∈ filter.toList ++ joins, [leftmost, x] <+ p.order := by
  have htop := h.topJoin_mem hp hroot
  intro x hx
  rcases mem_append.mp hx with hx | hx
  · obtain ⟨rfl, -, hinputs, -⟩ := h.of_filter (Option.mem_toList.mp hx)
    obtain ⟨below, rfl⟩ := h.chain.exists_cons
    exact pair_sublist_trans hp.nodup (h.chain.leftmost_before hp htop _ mem_cons_self)
      (hp.before x hroot topJoin (hinputs ▸ mem_singleton_self _))
  · exact h.chain.leftmost_before hp htop x hx

end

/-- Flattening puts a new node into the place of the top of a chain, moves the references to the
joins of the chain, and retires the chain. -/
theorem flattenAt_eq_ok {next next' : Nat} (h : p.flattenAt root next = .ok (q, next')) :
    ∃ filter topJoin joins leftmost inputs op buildId pre post,
      p.ChainAt root filter topJoin joins leftmost ∧
      p.flattenChain filter joins leftmost = .ok (inputs, op) ∧
      p.order = pre ++ filter.getD topJoin :: post ∧
      (({ p.alloc (.make buildId inputs (.leftDeepJoin op)) with
          order := pre ++ p.nextId :: post } : Plan).redirectAll p.nextId joins.tail
        topJoin).retireAll p.nextId (filter.getD topJoin) (filter.toList ++ joins) = .ok q := by
  obtain ⟨⟨filter, topJoin⟩, n, htop, h⟩ := Fresh.bind_eq_ok.mp h
  obtain ⟨⟨joins, leftmost⟩, n, hchain, h⟩ := Fresh.bind_eq_ok.mp h
  obtain ⟨⟨inputs, op⟩, n, hop, h⟩ := Fresh.bind_eq_ok.mp h
  obtain ⟨buildId, n, -, h⟩ := Fresh.bind_eq_ok.mp h
  obtain ⟨r, n, hr, h⟩ := Fresh.bind_eq_ok.mp h
  obtain ⟨pre, post, horder, rfl⟩ := replaceInOrder_eq_ok (Fresh.lift_eq_ok.mp hr).1
  exact ⟨filter, topJoin, joins, leftmost, inputs, op, buildId, pre, post,
    ⟨(Fresh.lift_eq_ok.mp htop).1, chainBelow_eq_ok (Fresh.lift_eq_ok.mp hchain).1⟩,
    (Fresh.lift_eq_ok.mp hop).1, horder, (Fresh.lift_eq_ok.mp h).1⟩

end Plan

end QueryPlan
