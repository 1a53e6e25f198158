import QueryPlan.Proofs.ChainFusion.Replacement
import QueryPlan.Proofs.ChainFusion.Termination
/-!
# QueryPlan.Proofs.ChainFusion.Coverage

**The walk misses no chain.** Take two nodes that a chain may take one after the other. While the
second one is not visited, the walk stands at the first one whenever that is visited
(`ChainWalk.Waiting`): it comes to the second one by the only use of the first one, or when every
place before is visited. Once a chain takes the first node, the next step takes the second one. A
chain of two nodes is dropped by nothing but a fusion, so when every place is visited and the last
chain is fused, no such two nodes are left (`Plan.not_fusable_of_fuseChains`).
-/

namespace QueryPlan

open List Plan

namespace ChainWalk

variable {w w' : ChainWalk} {ids joinRoots : List NodeId} {x y : NodeId} {i k next next' : Nat}

/-! ### Places -/

/-- A node has one place. -/
theorem slot_unique {α : Type} {slots : List (Option α)} {a : α}
    (hnodup : slots.reduceOption.Nodup) (hi : slots[i]? = some (some a))
    (hk : slots[k]? = some (some a)) : i = k := by
  have hnotLt : ∀ {i k : Nat}, slots[i]? = some (some a) → slots[k]? = some (some a) → ¬ i < k := by
    intro i k hi hk hlt
    rw [reduceOption_split hk] at hnodup
    have hbefore : a ∈ (slots.take k).reduceOption := by
      rw [reduceOption_mem_iff]
      exact mem_of_getElem? (by rwa [getElem?_take_of_lt hlt])
    exact (nodup_append.mp hnodup).2.2 a hbefore a mem_cons_self rfl
  exact Nat.le_antisymm (Nat.le_of_not_lt (hnotLt hk hi)) (Nat.le_of_not_lt (hnotLt hi hk))

/-- What a slot holds after some became gaps, it held before. -/
theorem slot_of_clear {α : Type} {slots : List (Option α)} {a : α} (places : List Nat)
    (h : (places.foldl (fun slots i => slots.set i none) slots)[k]? = some (some a)) :
    slots[k]? = some (some a) := by
  induction places generalizing slots with
  | nil => exact h
  | cons i places ih =>
      have hset := ih h
      by_cases hki : k = i
      · subst hki
        rw [getElem?_set_self'] at hset
        cases hk : slots[k]? <;> rw [hk] at hset <;> cases hset
      · rwa [getElem?_set_ne (Ne.symm hki)] at hset

/-- A node that is not new had its place before a fusion. -/
theorem slot_of_fusedSlots {place : Nat} (hx : x ≠ w.plan.nextId)
    (h : (w.fusedSlots place)[k]? = some (some x)) : w.slots[k]? = some (some x) := by
  refine slot_of_clear w.chain.dropLast ?_
  by_cases hk : k = place
  · subst hk
    rw [fusedSlots, getElem?_set_self'] at h
    cases hk : (w.chain.dropLast.foldl (fun slots i => slots.set i none) w.slots)[k]? with
    | none =>
        rw [hk] at h
        cases h
    | some o =>
        rw [hk] at h
        exact absurd (Option.some.inj (Option.some.inj h)).symm hx
  · rwa [fusedSlots, getElem?_set_ne (Ne.symm hk)] at h

/-- What stands at a place of a chain is a node of it. -/
theorem Holds.mem (h : w.Holds joinRoots ids) (hi : i ∈ w.chain)
    (hx : w.slots[i]? = some (some x)) : x ∈ ids := by
  obtain ⟨n, hn, heq⟩ := mem_map.mp (h.slots ▸ mem_map_of_mem (f := fun i => w.slots[i]?) hi)
  rw [hx] at heq
  exact Option.some.inj (Option.some.inj heq) ▸ hn

/-! ### Two nodes that a chain may take -/

/-- Two nodes, at their places, that a chain may take one after the other. -/
structure Pair (joinRoots : List NodeId) (w : ChainWalk) (x y : NodeId) (i k : Nat) : Prop where
  fusable : w.plan.Fusable joinRoots x y
  left : w.slots[i]? = some (some x)
  right : w.slots[k]? = some (some y)

section

variable {I : Plan → Prop} (h : w.Sound I) (hpair : w.Pair joinRoots x y i k)
include h hpair

theorem Pair.lt : i < k :=
  lt_of_pair (h.slots ▸ h.plan.nodup) hpair.left hpair.right <|
    h.slots ▸ h.plan.before y hpair.fusable.right x (hpair.fusable.inputs_eq ▸ mem_singleton_self x)

/-- The walk finds the only reader. -/
theorem Pair.onlyUse?_eq : w.onlyUse? i x = some k := by
  have huses := uses_of_inputs_eq hpair.fusable.inputs_eq
  refine onlyUse?_eq_some_iff.mpr ⟨⟨y, hpair.right, hpair.lt h, huses⟩, fun j m hm _ hread => ?_⟩
  obtain rfl := hpair.fusable.only m (h.mem_order hm) hread
  exact slot_unique (h.slots ▸ h.plan.nodup) hm hpair.right

end

/-- A chain comes to the same stage with a node wherever it can take that. -/
theorem nextStage?_unique {p : Plan} {stage a b : ChainStage}
    (ha : p.nextStage? joinRoots .start x = some a) (hb : p.nextStage? joinRoots stage x = some b) :
    a = b := by
  rcases nextStage?_eq_some ha with ⟨-, rfl, _, ha⟩ | ⟨-, rfl, _, ha⟩ | ⟨hstart, -⟩ | ⟨hstart, -⟩
  rotate_left 2
  · cases hstart
  · cases hstart
  all_goals
    rcases nextStage?_eq_some hb with
      ⟨-, rfl, _, hb⟩ | ⟨-, rfl, _, hb⟩ | ⟨-, rfl, _, hb⟩ | ⟨-, rfl, _, hb⟩ <;>
    first
    | rfl
    | cases ha.symm.trans hb

/-- The second place is not visited, and the first one only if the walk stands there. -/
structure Waiting (w : ChainWalk) (i k : Nat) : Prop where
  unvisited : k ∉ w.visited
  elsewhere : w.place ≠ some k
  stands : i ∈ w.visited → w.place = some i

/-- How far the walk is with two nodes that a chain may take one after the other. -/
inductive Tracked (joinRoots : List NodeId) (w : ChainWalk) (y : NodeId) (i k : Nat) : Prop
  | waiting : w.Waiting i k → Tracked joinRoots w y i k
  /-- The chain has taken the first node and goes on with the second one. -/
  | between : w.chain.getLast? = some i → w.place = some k → k ∉ w.visited →
    (w.plan.nextStage? joinRoots w.stage y).isSome = true → Tracked joinRoots w y i k
  | passed : i ∈ w.chain.dropLast → Tracked joinRoots w y i k

/-- The walk keeps track of all nodes that a chain may take one after the other. -/
def Covers (joinRoots : List NodeId) (w : ChainWalk) : Prop :=
  ∀ x y i k, w.Pair joinRoots x y i k → w.Tracked joinRoots y i k

/-- Of the plan it is known that every node stands behind its inputs and has as many as it takes. -/
abbrev ArrangedPlan (p : Plan) : Prop := p.Arranged p.order

/-! ### Steps -/

theorem Waiting.visit (h : w.Waiting i k) : w.visit.Waiting i k := by
  rcases w.visit_cases with heq | ⟨j, hplace, -, heq⟩ <;> rw [heq]
  · exact h
  · refine ⟨fun hk => ?_, h.elsewhere, fun hi => ?_⟩
    · rcases mem_cons.mp hk with rfl | hk
      · exact h.elsewhere hplace
      · exact h.unvisited hk
    · rcases mem_cons.mp hi with rfl | hi
      · exact hplace
      · exact h.stands hi

theorem Pair.of_visit (h : w.visit.Pair joinRoots x y i k) : w.Pair joinRoots x y i k := by
  obtain ⟨visited, heq⟩ := w.visit_eq
  rw [heq] at h
  exact ⟨h.fusable, h.left, h.right⟩

theorem current?_of_slot (hplace : w.place = some i) (hx : w.slots[i]? = some (some x)) :
    w.current? = some (i, x) := by
  rw [current?, hplace]
  change ((w.nodeAt i).bind fun n => some (i, n)) = _
  rw [nodeAt_eq_some.mpr hx]
  rfl

/-- Once the current place is visited, both nodes wait, or the chain has the first one and goes on
with the second one unless it has that too. -/
theorem Tracked.visit (h : w.Tracked joinRoots y i k) (hpair : w.Pair joinRoots x y i k) :
    w.visit.Waiting i k ∨ i ∈ w.visit.chain ∧
      (w.visit.advance? joinRoots = none → i ∈ w.visit.chain.dropLast) := by
  cases h with
  | waiting h => exact .inl h.visit
  | between hlast hplace _ hnext =>
      obtain ⟨visited, heq⟩ := w.visit_eq
      rw [heq]
      refine .inr ⟨mem_of_getLast? hlast, fun hnone => ?_⟩
      obtain ⟨next, hnext⟩ := Option.isSome_iff_exists.mp hnext
      have hcurrent := current?_of_slot hplace hpair.right
      change w.advance? joinRoots = none at hnone
      rw [advance?, hcurrent] at hnone
      change ((w.plan.nextStage? joinRoots w.stage y).bind fun s => some (k, s)) = none at hnone
      rw [hnext] at hnone
      cases hnone
  | passed h =>
      obtain ⟨visited, heq⟩ := w.visit_eq
      rw [heq]
      exact .inr ⟨dropLast_subset _ h, fun _ => h⟩

/-- The walk does not return to the second place before it was at the first one. -/
theorem Waiting.toUnvisited (h : w.Waiting i k) (hlt : i < k) (hi : i ∉ w.visited) :
    w.toUnvisited.Waiting i k where
  unvisited := h.unvisited
  elsewhere hplace := hi ((toUnvisited_place_eq_some hplace).2.2 i hlt)
  stands hvisited := absurd hvisited hi

/-- A chain may begin with the first node of two. -/
theorem Pair.not_stands (hpair : w.Pair joinRoots x y i k) (hw : w.Waiting i k)
    (hstage : w.stage = .start) (hnone : w.advance? joinRoots = none) : i ∉ w.visited := by
  intro hi
  obtain ⟨s, -, hs, -⟩ := hpair.fusable.goesOn
  rw [w.advance?_eq joinRoots hstage, current?_of_slot (hw.stands hi) hpair.left] at hnone
  change ((w.plan.nextStage? joinRoots .start x).bind fun s => some (i, s)) = none at hnone
  rw [hs] at hnone
  cases hnone

/-- The chain takes a node, and the walk goes to its only use. -/
theorem Sound.tracked_take {I : Plan → Prop} (h : w.Sound I) (hpair : w.Pair joinRoots x y i k)
    (hw : w.Waiting i k ∨ i ∈ w.chain) {found : Nat × ChainStage}
    (hnext : w.advance? joinRoots = some found) :
    (w.take found.1 found.2).toOnlyUse.Tracked joinRoots y i k := by
  obtain ⟨j, stage⟩ := found
  obtain ⟨z, hcurrent, hstage⟩ := advance?_eq_some hnext
  obtain ⟨hplace, hz⟩ := current?_eq_some hcurrent
  have hgoes : (w.take j stage).toOnlyUse.place = w.onlyUse? j z := by
    change (w.current?.bind fun found => w.onlyUse? found.1 found.2) = _
    rw [hcurrent]
    rfl
  rcases hw with hw | hi
  · by_cases hij : i = j
    · subst hij
      obtain rfl := Option.some.inj (Option.some.inj (hz.symm.trans hpair.left))
      obtain ⟨s, t, hs, ht⟩ := hpair.fusable.goesOn
      obtain rfl := nextStage?_unique hs hstage
      exact .between getLast?_concat (hgoes.trans (hpair.onlyUse?_eq h)) hw.unvisited
        (Option.isSome_iff_exists.mpr ⟨t, ht⟩)
    · refine .waiting ⟨hw.unvisited, fun hk => ?_, fun hi => ?_⟩
      · -- What the second node reads stands at the first place.
        have hread := (h.onlyUse? hz (hgoes.symm.trans hk) hpair.right).1
        rw [hpair.fusable.inputs_eq, mem_singleton] at hread
        exact hij (slot_unique (h.slots ▸ h.plan.nodup) hpair.left (hread ▸ hz))
      · exact absurd (Option.some.inj ((hw.stands hi).symm.trans hplace)) hij
  · refine .passed ?_
    change i ∈ (w.chain ++ [j]).dropLast
    rwa [dropLast_concat]

/-- A chain of filters has one node. -/
theorem Chained.length_of_filtered {p : Plan} (h : p.Chained joinRoots ids .filtered) :
    ids.length = 1 := by
  cases h with
  | next hchain _ _ hnext =>
      rcases nextStage?_eq_some hnext with ⟨rfl, -⟩ | ⟨-, h, -⟩ | ⟨-, h, -⟩ | ⟨-, h, -⟩
      · rw [Chained.of_start hchain]
        rfl
      all_goals cases h

/-- A chain that is dropped has at most one node. -/
theorem Steady.dropLast_eq_nil {I : Plan → Prop} (h : w.Steady I joinRoots)
    (hstage : w.stage = .start ∨ w.stage = .filtered ∨ w.chain.length < 2) :
    w.chain.dropLast = [] := by
  suffices hshort : w.chain.length < 2 by
    rw [← length_eq_zero_iff, length_dropLast]
    omega
  obtain ⟨ids, hholds, -⟩ := h.chained
  rw [hholds.length_eq] at hstage ⊢
  rcases hstage with hstage | hstage | hshort
  · obtain rfl := Chained.of_start (hstage ▸ hholds.chained)
    decide
  · rw [Chained.length_of_filtered (hstage ▸ hholds.chained)]
    decide
  · exact hshort

/-- What is fusable after a fusion was so before, and none of it is in the chain. -/
theorem Sound.pair_of_fuse {u fused : ChainWalk} (h : u.Sound ArrangedPlan)
    (hholds : u.Holds joinRoots ids) (hfused : u.fuse next = .ok (fused, next'))
    (hpair : fused.Pair joinRoots x y i k) :
    u.Pair joinRoots x y i k ∧ i ∉ u.chain := by
  obtain ⟨first, last, place, q, hfirst, hlast, -, -, hq, rfl⟩ := hholds.fuse_eq_ok hfused
  have hreplaced := h.plan.replaced hholds.chained hlast hq
  obtain ⟨hfusable, hx, hy⟩ :=
    hreplaced.fusable h.known hholds.chained hlast hfirst hpair.fusable
  have hold : ∀ {n : NodeId}, n ∈ u.plan.order → n ≠ u.plan.nextId := fun hn =>
    ne_nextId (h.plan.inArena _ hn)
  have hleft := slot_of_fusedSlots (hold hfusable.left) hpair.left
  exact ⟨⟨hfusable, hleft, slot_of_fusedSlots (hold hfusable.right) hpair.right⟩,
    fun hi => hx (hholds.mem hi hleft)⟩

/-- A step keeps track of all nodes that a chain may take one after the other. -/
theorem Steady.step_covers (h : w.Steady ArrangedPlan joinRoots) (hw : w.Covers joinRoots)
    (hstep : w.step joinRoots next = .ok (w', next')) : w'.Covers joinRoots := by
  intro x y i k hpair
  have hv := h.visit
  have hseen : ∀ {x y i k}, w.visit.Pair joinRoots x y i k → w.visit.Waiting i k ∨
      i ∈ w.visit.chain ∧ (w.visit.advance? joinRoots = none → i ∈ w.visit.chain.dropLast) :=
    fun hpair => (hw _ _ _ _ hpair.of_visit).visit hpair.of_visit
  rcases w.step_cases joinRoots with ⟨found, hnext, heq⟩ |
    ⟨hnone, ⟨hstage, heq⟩ | ⟨hstage, heq⟩ | ⟨u, hcloses, heq⟩⟩ <;> rw [heq] at hstep
  · obtain ⟨rfl, -⟩ := Fresh.pure_eq_ok.mp hstep
    have hpair : w.visit.Pair joinRoots x y i k := ⟨hpair.fusable, hpair.left, hpair.right⟩
    exact hv.tracked_take hpair ((hseen hpair).imp_right And.left) hnext
  · obtain ⟨rfl, -⟩ := Fresh.pure_eq_ok.mp hstep
    have hpair : w.visit.Pair joinRoots x y i k := ⟨hpair.fusable, hpair.left, hpair.right⟩
    rcases hseen hpair with hwaits | ⟨-, hpassed⟩
    · exact .waiting (hwaits.toUnvisited (hpair.lt hv.toSound)
        (hpair.not_stands hwaits hstage hnone))
    · exact .passed (hpassed hnone)
  · obtain ⟨rfl, -⟩ := Fresh.pure_eq_ok.mp hstep
    have hpair : w.visit.Pair joinRoots x y i k := ⟨hpair.fusable, hpair.left, hpair.right⟩
    rcases hseen hpair with hwaits | ⟨-, hpassed⟩
    · exact .waiting ⟨hwaits.unvisited, hwaits.elsewhere, hwaits.stands⟩
    · exact absurd (hpassed hnone)
        (hv.dropLast_eq_nil (.inr (hstage.imp_right And.right)) ▸ not_mem_nil)
  · obtain ⟨fused, n, hfused, hstep⟩ := Fresh.bind_eq_ok.mp hstep
    obtain ⟨rfl, -⟩ := Fresh.pure_eq_ok.mp hstep
    obtain ⟨hsound, ids, hholds⟩ := hv.closes hcloses
    have hafter : fused.Pair joinRoots x y i k := ⟨hpair.fusable, hpair.left, hpair.right⟩
    obtain ⟨hbefore, hi⟩ := hsound.pair_of_fuse hholds hfused hafter
    obtain ⟨-, -, _, _, -, -, -, -, -, heq⟩ := hholds.fuse_eq_ok hfused
    rw [heq]
    cases hcloses with
    | whole =>
        rcases hseen hbefore with hwaits | ⟨-, hpassed⟩
        · exact .waiting ⟨hwaits.unvisited, hwaits.elsewhere, hwaits.stands⟩
        · exact absurd (dropLast_subset _ (hpassed hnone)) hi
    | @ended place id hgrouped hcurrent hend =>
        change i ∉ w.visit.chain ++ [place] at hi
        rw [mem_append, mem_singleton, not_or] at hi
        have hbefore : w.visit.Pair joinRoots x y i k :=
          ⟨hbefore.fusable, hbefore.left, hbefore.right⟩
        rcases hseen hbefore with hwaits | ⟨hchain, -⟩
        · have hunvisited : i ∉ w.visit.visited := fun hvisited =>
            hi.2 (Option.some.inj
              ((hwaits.stands hvisited).symm.trans (current?_eq_some hcurrent).1))
          have hback := hwaits.toUnvisited (hbefore.lt hv.toSound) hunvisited
          exact .waiting ⟨hback.unvisited, hback.elsewhere, hback.stands⟩
        · exact absurd hchain hi.1

theorem kept_arranged : Kept joinRoots ArrangedPlan := by
  intro p q ids stage first last next next' hchain _ hfirst hlast hq hp
  obtain ⟨hordered, -⟩ := hp.toOrdered.replaceChain hchain hfirst hlast hq
  exact (hp.toOrdered.replaced hchain hlast hq).arranged hp hchain hlast hordered

/-! ### The whole walk -/

theorem Steady.run_covers (h : w.Steady ArrangedPlan joinRoots) (hw : w.Covers joinRoots)
    {fuel : Nat} (hrun : w.run joinRoots fuel next = .ok (w', next')) : w'.Covers joinRoots := by
  induction fuel generalizing w next with
  | zero => exact (Fresh.pure_eq_ok.mp hrun).1 ▸ hw
  | succ fuel ih =>
      rw [ChainWalk.run] at hrun
      split at hrun
      · exact (Fresh.pure_eq_ok.mp hrun).1 ▸ hw
      · obtain ⟨v, n, hstep, hrun⟩ := Fresh.bind_eq_ok.mp hrun
        exact ih (h.step kept_arranged hstep) (h.step_covers hw hstep) hrun

/-- When every place is visited, only nodes of the last chain are left to fuse. -/
theorem Covers.mem_dropLast (hcovers : w.Covers joinRoots) (hw : w.InPlaces)
    (hdone : w.isDone = true) (hpair : w.Pair joinRoots x y i k) : i ∈ w.chain.dropLast := by
  have hk := hw.mem_visited hdone (lt_length_of_slot hpair.right)
  cases hcovers x y i k hpair with
  | waiting h => exact absurd hk h.unvisited
  | between _ _ hnew => exact absurd hk hnew
  | passed h => exact h

theorem Sound.exists_pair {I : Plan → Prop} (h : w.Sound I)
    (hfusable : w.plan.Fusable joinRoots x y) : ∃ i k, w.Pair joinRoots x y i k := by
  obtain ⟨i, hi⟩ := h.exists_slot hfusable.left
  obtain ⟨k, hk⟩ := h.exists_slot hfusable.right
  exact ⟨i, k, hfusable, hi, hk⟩

/-- Once every place is visited and the last chain is fused, nothing is left to fuse. -/
theorem Steady.not_fusable_of_finish (h : w.Steady ArrangedPlan joinRoots)
    (hcovers : w.Covers joinRoots) (hw : w.InPlaces) (hdone : w.isDone = true)
    (hfinish : w.finish next = .ok (w', next')) : ¬ w'.plan.Fusable joinRoots x y := by
  have hdropped : w.stage = .start ∨ w.stage = .filtered ∨ w.chain.length < 2 →
      ¬ w.plan.Fusable joinRoots x y := by
    intro hstage hfusable
    obtain ⟨i, k, hpair⟩ := h.toSound.exists_pair hfusable
    have hpassed := hcovers.mem_dropLast hw hdone hpair
    rw [h.dropLast_eq_nil hstage] at hpassed
    exact not_mem_nil hpassed
  have hfinished := h.finish kept_arranged hfinish
  obtain ⟨ids, hholds, -⟩ := h.chained
  unfold ChainWalk.finish at hfinish
  cases hstage : w.stage with
  | start | filtered =>
      rw [hstage] at hfinish
      obtain ⟨rfl, -⟩ := Fresh.pure_eq_ok.mp hfinish
      exact hdropped (by simp [hstage])
  | projected | grouped =>
      rw [hstage] at hfinish
      dsimp only at hfinish
      split at hfinish
      · intro hfusable
        obtain ⟨i, k, hpair⟩ := hfinished.exists_pair hfusable
        obtain ⟨hbefore, hi⟩ := h.toSound.pair_of_fuse hholds hfinish hpair
        exact hi (dropLast_subset _ (hcovers.mem_dropLast hw hdone hbefore))
      · next hshort =>
        obtain ⟨rfl, -⟩ := Fresh.pure_eq_ok.mp hfinish
        exact hdropped (.inr (.inr (Nat.lt_of_not_le hshort)))

theorem covers_ofPlan {I : Plan → Prop} {p : Plan} (h : (ofPlan p).Sound I) :
    (ofPlan p).Covers joinRoots := by
  intro x y i k hpair
  refine .waiting ⟨not_mem_nil, fun hplace => ?_, nofun⟩
  -- The walk begins at the first place.
  have hlt := hpair.lt h
  change (if p.order.isEmpty then none else some 0) = some k at hplace
  split at hplace
  · cases hplace
  · obtain rfl := Option.some.inj hplace
    exact Nat.not_lt_zero i hlt

end ChainWalk

namespace Plan

variable {p q : Plan} {joinRoots : List NodeId} {next next' : Nat}

/-- **Fusing chains leaves nothing to fuse.** -/
theorem Arranged.not_fusable_of_fuseChains (h : p.Arranged p.order)
    (hq : p.fuseChains joinRoots next = .ok (q, next')) (x y : NodeId) :
    ¬ q.Fusable joinRoots x y := by
  obtain ⟨w, n, hrun, hq⟩ := Fresh.bind_eq_ok.mp hq
  obtain ⟨v, n, hfinish, hq⟩ := Fresh.bind_eq_ok.mp hq
  obtain ⟨rfl, -⟩ := Fresh.pure_eq_ok.mp hq
  have hsound := ChainWalk.Sound.ofPlan (I := ChainWalk.ArrangedPlan) h.toOrdered h
  have hstart : (ChainWalk.ofPlan p).Steady ChainWalk.ArrangedPlan joinRoots :=
    hsound.restart
  obtain ⟨hdone, hw⟩ := (ChainWalk.inPlaces_ofPlan p).isDone_of_run
    (ChainWalk.remaining_ofPlan_lt p).le hrun
  exact (hstart.run ChainWalk.kept_arranged hrun).not_fusable_of_finish
    (hstart.run_covers (ChainWalk.covers_ofPlan hsound) hrun) hw hdone hfinish

end Plan

end QueryPlan
