import QueryPlan.Proofs.Scope.Chains
import Mathlib.Data.List.ReduceOption
/-!
# QueryPlan.Proofs.Scope.ChainWalk

**The walk that fuses chains.** Its slots list the live order, with gaps where nodes went into a
compound (`ChainWalk.Sound`). So places behind a node hold all of its readers, and a place that
the walk goes to holds the only reader of the last node of its chain (`ChainWalk.Follows`).
-/

namespace QueryPlan

open List Plan

/-! ### Lists with gaps -/

section Gaps

variable {α : Type} {slots : List (Option α)} {i : Nat} {a b : α}

/-- What a slot holds splits what all slots hold. -/
theorem reduceOption_split (h : slots[i]? = some (some a)) :
    slots.reduceOption =
      (slots.take i).reduceOption ++ a :: (slots.drop (i + 1)).reduceOption := by
  obtain ⟨hi, ha⟩ := List.getElem?_eq_some_iff.mp h
  conv_lhs => rw [← take_append_drop i slots, drop_eq_getElem_cons hi, ha]
  rw [reduceOption_append, reduceOption_cons_of_some]

theorem reduceOption_set (hi : i < slots.length) (o : Option α) :
    (slots.set i o).reduceOption =
      (slots.take i).reduceOption ++ (o.toList ++ (slots.drop (i + 1)).reduceOption) := by
  rw [set_eq_take_append_cons_drop, if_pos hi, reduceOption_append]
  cases o with
  | none => rw [reduceOption_cons_of_none]; rfl
  | some b => rw [reduceOption_cons_of_some]; rfl

/-- Slots list what they hold in order. -/
theorem lt_of_pair {j : Nat} (hnodup : slots.reduceOption.Nodup) (hi : slots[i]? = some (some a))
    (hj : slots[j]? = some (some b)) (hpair : [a, b] <+ slots.reduceOption) : i < j := by
  rw [reduceOption_split hi] at hnodup hpair
  have hb := mem_right_of_pair hpair hnodup
  have hdisjoint := (nodup_append.mp hnodup).2.2
  by_contra hle
  rcases Nat.lt_or_eq_of_le (Nat.le_of_not_lt hle) with hlt | rfl
  · have hbefore : b ∈ (slots.take i).reduceOption := by
      rw [reduceOption_mem_iff]
      refine mem_of_getElem? (i := j) ?_
      rwa [getElem?_take_of_lt hlt]
    exact hdisjoint b hbefore b (mem_cons_of_mem _ hb) rfl
  · rw [hi] at hj
    obtain rfl := Option.some.inj (Option.some.inj hj)
    exact (nodup_cons.mp (nodup_append.mp hnodup).2.1).1 hb

theorem lt_length_of_slot (h : slots[i]? = some (some a)) : i < slots.length :=
  (List.getElem?_eq_some_iff.mp h).1

variable [DecidableEq α]

/-- A slot that becomes a gap takes out what it held. -/
theorem reduceOption_set_none (hnodup : slots.reduceOption.Nodup)
    (h : slots[i]? = some (some a)) :
    (slots.set i none).reduceOption = slots.reduceOption.filter fun b => b != a := by
  have hsplit := reduceOption_split h
  rw [hsplit] at hnodup
  have ha := nodup_cons.mp (nodup_middle.mp hnodup)
  rw [reduceOption_set (lt_length_of_slot h), hsplit, filter_append, filter_cons_of_neg (by simp),
    ← filter_append, filter_eq_self.mpr fun b hb => ?_]
  · rfl
  · rw [bne_iff_ne]
    rintro rfl
    exact ha.1 hb

/-- Slots that become gaps take out what they held. -/
theorem reduceOption_clear {places : List Nat} {as : List α} (hnodup : slots.reduceOption.Nodup)
    (has : as.Nodup) (h : places.map (fun i => slots[i]?) = as.map fun a => some (some a)) :
    (places.foldl (fun slots i => slots.set i none) slots).reduceOption =
      slots.reduceOption.filter fun b => !as.contains b := by
  induction places generalizing slots as with
  | nil =>
      obtain rfl := map_eq_nil_iff.mp h.symm
      simp
  | cons i places ih =>
      obtain ⟨a, as, rfl, hi, hrest⟩ := map_eq_cons_iff.mp h.symm
      obtain ⟨ha, has⟩ := nodup_cons.mp has
      have hset := reduceOption_set_none hnodup hi.symm
      have hne : ∀ k ∈ places, k ≠ i := by
        rintro k hk rfl
        obtain ⟨b, hb, hkb⟩ := mem_map.mp (hrest ▸ mem_map_of_mem hk)
        exact ha (Option.some.inj (Option.some.inj (hkb.trans hi.symm)) ▸ hb)
      have hrest' : places.map (fun k => (slots.set i none)[k]?) =
          as.map fun b => some (some b) := by
        rw [hrest]
        exact map_congr_left fun k hk => getElem?_set_ne (Ne.symm (hne k hk))
      rw [foldl_cons, ih (hset ▸ hnodup.filter _) has hrest', hset, filter_filter]
      refine filter_congr fun b _ => ?_
      rw [contains_cons, Bool.not_or, Bool.and_comm]
      rfl

omit [DecidableEq α] in
theorem getElem?_clear {places : List Nat} (hi : i ∉ places) :
    (places.foldl (fun slots i => slots.set i none) slots)[i]? = slots[i]? := by
  induction places generalizing slots with
  | nil => rfl
  | cons k places ih =>
      rw [mem_cons, not_or] at hi
      rw [foldl_cons, ih hi.2, getElem?_set_ne (Ne.symm hi.1)]

end Gaps

/-- A value for one element of a list and none for the others. -/
theorem filterMap_eq_singleton {α β : Type} {l : List α} {f : α → Option β} {a : α} {b : β}
    (hnodup : l.Nodup) (ha : a ∈ l) (hfa : f a = some b)
    (hothers : ∀ x ∈ l, x ≠ a → f x = none) : l.filterMap f = [b] := by
  obtain ⟨pre, post, rfl⟩ := append_of_mem ha
  have hnot := (nodup_cons.mp (nodup_middle.mp hnodup)).1
  rw [mem_append, not_or] at hnot
  have hpre : pre.filterMap f = [] := filterMap_eq_nil_iff.mpr fun x hx =>
    hothers x (mem_append_left _ hx) fun hxa => hnot.1 (hxa ▸ hx)
  have hpost : post.filterMap f = [] := filterMap_eq_nil_iff.mpr fun x hx =>
    hothers x (mem_append_right _ (mem_cons_of_mem _ hx)) fun hxa => hnot.2 (hxa ▸ hx)
  rw [filterMap_append, filterMap_cons_some hfa, hpre, hpost]
  rfl

namespace ChainWalk

variable {I : Plan → Prop} {w w' : ChainWalk} {ids joinRoots : List NodeId} {id : NodeId}
  {place next next' : Nat} {stage : ChainStage}

/-- A fact about plans that holds of what a fusion gives if it holds of what it takes. -/
def Kept (joinRoots : List NodeId) (I : Plan → Prop) : Prop :=
  ∀ (p q : Plan) (ids : List NodeId) (stage : ChainStage) (first last : NodeId) (next next' : Nat),
    p.Chained joinRoots ids stage → 2 ≤ ids.length → ids.head? = some first →
      ids.getLast? = some last → p.replaceChain ids first last next = .ok (q, next') → I p → I q

/-- The slots of a walk list the live order of its plan, of which something is known. -/
structure Sound (I : Plan → Prop) (w : ChainWalk) : Prop where
  plan : w.plan.Ordered w.plan.order
  known : I w.plan
  slots : w.slots.reduceOption = w.plan.order

/-- The places of the chain hold the nodes of a chain. -/
structure Holds (joinRoots : List NodeId) (w : ChainWalk) (ids : List NodeId) : Prop where
  slots : w.chain.map (fun i => w.slots[i]?) = ids.map fun id => some (some id)
  chained : w.plan.Chained joinRoots ids w.stage

/-- The chain is not closed yet, and the current place, if it holds a node, holds the only reader of
its last node. -/
def Follows (w : ChainWalk) (ids : List NodeId) : Prop :=
  ∀ last ∈ ids.getLast?, (w.stage = .grouped → ∃ a, w.plan.op last = .aggregate a) ∧
    ∀ place id, w.current? = some (place, id) → w.plan.OnlyReader last id

theorem nodeAt_eq_some : w.nodeAt place = some id ↔ w.slots[place]? = some (some id) :=
  Option.join_eq_some_iff

theorem current?_eq_some (h : w.current? = some (place, id)) :
    w.place = some place ∧ w.slots[place]? = some (some id) := by
  obtain ⟨i, hi, h⟩ := Option.bind_eq_some_iff.mp h
  obtain ⟨x, hx, h⟩ := Option.bind_eq_some_iff.mp h
  cases h
  exact ⟨hi, nodeAt_eq_some.mp hx⟩

/-- The place of the only use of a node stands behind it and holds what reads it once, and no other
place behind it holds what reads it. -/
theorem onlyUse?_eq_some_iff {i : Nat} : w.onlyUse? place id = some i ↔
    (∃ n, w.slots[i]? = some (some n) ∧ place < i ∧ (w.plan.node n).uses id = 1) ∧
      ∀ k m, w.slots[k]? = some (some m) → place < k → id ∈ w.plan.inputs m → k = i := by
  constructor
  · intro h
    unfold onlyUse? at h
    dsimp only at h
    split at h
    · next j heq =>
      obtain rfl := Option.some.inj h
      refine ⟨?_, fun k m hm hlt hread => ?_⟩
      · have hmem : (j, 1) ∈ [(j, 1)] := mem_singleton_self _
        rw [← heq, mem_filter, mem_filterMap] at hmem
        obtain ⟨⟨k, -, hk⟩, -⟩ := hmem
        split at hk
        · next hlt =>
          split at hk
          · next n hn =>
            obtain ⟨rfl, huses⟩ := Prod.mk.inj (Option.some.inj hk)
            exact ⟨n, nodeAt_eq_some.mp hn, hlt, huses⟩
          · cases hk
        · cases hk
      · have hmem : (k, (w.plan.node m).uses id) ∈ [(j, 1)] := by
          rw [← heq, mem_filter, mem_filterMap]
          refine ⟨⟨k, mem_range.mpr (lt_length_of_slot hm), ?_⟩, ?_⟩
          · rw [if_pos hlt, nodeAt_eq_some.mpr hm]
          · simpa using Nat.ne_of_gt (uses_pos_iff.mpr hread)
        exact (Prod.mk.inj (mem_singleton.mp hmem)).1
    · cases h
  · rintro ⟨⟨n, hn, hlt, huses⟩, honly⟩
    unfold onlyUse?
    dsimp only
    rw [filter_filterMap, filterMap_eq_singleton (b := (i, 1)) nodup_range
      (mem_range.mpr (lt_length_of_slot hn))]
    · rfl
    · rw [if_pos hlt, nodeAt_eq_some.mpr hn]
      dsimp only
      rw [huses]
      rfl
    · intro k _ hki
      split
      · next hlt =>
        split
        · next m hm =>
          have hunread : (w.plan.node m).uses id = 0 := Nat.eq_zero_of_not_pos fun hpos =>
            hki (honly k m (nodeAt_eq_some.mp hm) hlt (uses_pos_iff.mp hpos))
          rw [hunread]
          rfl
        · rfl
      · rfl

/-- The walk finds the nodes of its chain. -/
theorem Holds.nodes_eq (h : w.Holds joinRoots ids) (what : String) :
    w.chain.mapM (fun i => Result.required what (w.nodeAt i)) = .ok ids := by
  have hslots := h.slots
  rw [← forall₂_eq_eq_eq, forall₂_map_left_iff, forall₂_map_right_iff] at hslots
  exact Result.mapM_eq_ok.mpr
    (hslots.imp fun i id hi => Result.required_eq_ok.mpr (nodeAt_eq_some.mpr hi))

theorem Holds.length_eq (h : w.Holds joinRoots ids) : w.chain.length = ids.length := by
  simpa using congrArg length h.slots

/-- The slots after a fusion: the compound stands where the last node of the chain did, and the
other nodes leave gaps. -/
def fusedSlots (w : ChainWalk) (place : Nat) : List (Option NodeId) :=
  (w.chain.dropLast.foldl (fun slots i => slots.set i none) w.slots).set place (some w.plan.nextId)

/-- Fusing a chain of two to four nodes replaces it in the plan and in the slots. -/
theorem Holds.fuse_eq (h : w.Holds joinRoots ids) (hleast : 2 ≤ w.chain.length)
    (hmost : w.chain.length ≤ 4) : ∃ first last place, ids.head? = some first ∧
      ids.getLast? = some last ∧ w.chain.getLast? = some place ∧
      w.fuse next = (w.plan.replaceChain ids first last >>= fun plan =>
        pure { w with plan := plan, slots := w.fusedSlots place }) next := by
  have hlength := h.length_eq
  have hids : ids ≠ [] := ne_nil_of_length_pos (by omega)
  have hchain : w.chain ≠ [] := ne_nil_of_length_pos (by omega)
  obtain ⟨first, rest, rfl⟩ := exists_cons_of_ne_nil hids
  have hlast := getLast?_eq_some_getLast hids
  have hplace := getLast?_eq_some_getLast hchain
  have hcount : (decide (2 ≤ w.chain.length) && decide (w.chain.length ≤ 4)) = true := by
    simp [hleast, hmost]
  refine ⟨first, _, _, rfl, hlast, hplace, ?_⟩
  unfold ChainWalk.fuse
  dsimp only
  rw [Fresh.bind_ok (a := ()) (Fresh.lift_ok (Result.ensure_eq_ok.mpr hcount)),
    Fresh.bind_ok (Fresh.mapM_lift.mpr ⟨h.nodes_eq _, rfl⟩), hlast, hplace]
  rfl

/-- What a fusion does that is not refused. -/
theorem Holds.fuse_eq_ok (h : w.Holds joinRoots ids) (hfuse : w.fuse next = .ok (w', next')) :
    ∃ first last place q, ids.head? = some first ∧ ids.getLast? = some last ∧
      w.chain.getLast? = some place ∧ 2 ≤ ids.length ∧
      w.plan.replaceChain ids first last next = .ok (q, next') ∧
      w' = { w with plan := q, slots := w.fusedSlots place } := by
  obtain ⟨hleast, hmost⟩ : 2 ≤ w.chain.length ∧ w.chain.length ≤ 4 := by
    obtain ⟨_, n, hcount, -⟩ := Fresh.bind_eq_ok.mp hfuse
    simpa using Result.ensure_eq_ok.mp (Fresh.lift_eq_ok.mp hcount).1
  obtain ⟨first, last, place, hfirst, hlast, hplace, heq⟩ := h.fuse_eq hleast hmost
  rw [heq] at hfuse
  obtain ⟨q, n, hq, hfuse⟩ := Fresh.bind_eq_ok.mp hfuse
  obtain ⟨rfl, rfl⟩ := Fresh.pure_eq_ok.mp hfuse
  exact ⟨first, last, place, q, hfirst, hlast, hplace, h.length_eq ▸ hleast, hq, rfl⟩

namespace Sound

theorem ofPlan {p : Plan} (h : p.Ordered p.order) (hp : I p) : (ofPlan p).Sound I where
  plan := h
  known := hp
  slots := by simp [ChainWalk.ofPlan, reduceOption]

theorem mem_order (h : w.Sound I) (hid : w.slots[place]? = some (some id)) :
    id ∈ w.plan.order := by
  rw [← h.slots, reduceOption_mem_iff]
  exact mem_of_getElem? hid

theorem exists_slot (h : w.Sound I) (hid : id ∈ w.plan.order) :
    ∃ i : Nat, w.slots[i]? = some (some id) := by
  rw [← h.slots, reduceOption_mem_iff] at hid
  obtain ⟨i, hi⟩ := getElem?_of_mem hid
  exact ⟨i, hi⟩

/-- The place of the only use of a node holds its only reader. -/
theorem onlyUse? (h : w.Sound I) (hid : w.slots[place]? = some (some id)) {i : Nat} {n : NodeId}
    (huse : w.onlyUse? place id = some i) (hn : w.slots[i]? = some (some n)) :
    w.plan.OnlyReader id n := by
  obtain ⟨⟨k, hk, -, huses⟩, honly⟩ := onlyUse?_eq_some_iff.mp huse
  obtain rfl := Option.some.inj (Option.some.inj (hn.symm.trans hk))
  refine ⟨uses_pos_iff.mp (by omega), fun m hm hread => ?_⟩
  obtain ⟨j, hj⟩ := h.exists_slot hm
  have hlt := lt_of_pair (h.slots ▸ h.plan.nodup) hid hj
    (h.slots ▸ h.plan.before m hm id hread)
  obtain rfl := honly j m hj hlt hread
  exact Option.some.inj (Option.some.inj (hj.symm.trans hn))

/-- After a fusion the slots list what stays live. -/
theorem reduceOption_fusedSlots (h : w.Sound I) (hholds : w.Holds joinRoots ids) {last : NodeId}
    (hlast : ids.getLast? = some last) (hplace : w.chain.getLast? = some place)
    {pre post : List NodeId} (horder : w.plan.order = pre ++ last :: post) :
    (w.fusedSlots place).reduceOption = w.plan.withoutChain ids pre post := by
  have hslots := hholds.slots
  have hnodup := hholds.chained.nodup h.plan
  rw [← dropLast_append_getLast? last hlast] at hnodup
  have hlastFront := (nodup_append.mp hnodup).2.2
  have hlastSlot : w.slots[place]? = some (some last) := by
    have hgetLast := congrArg getLast? hslots
    rw [getLast?_map, getLast?_map, hlast, hplace] at hgetLast
    exact Option.some.inj hgetLast
  have hfront : w.chain.dropLast.map (fun i => w.slots[i]?) =
      ids.dropLast.map fun id => some (some id) := by
    rw [map_dropLast, map_dropLast, hslots]
  have hplaceFront : place ∉ w.chain.dropLast := by
    intro hmem
    obtain ⟨id, hid, heq⟩ := mem_map.mp (hfront ▸ mem_map_of_mem hmem)
    rw [hlastSlot] at heq
    exact hlastFront id hid last (mem_singleton_self _) (Option.some.inj (Option.some.inj heq))
  have hclear := reduceOption_clear (h.slots ▸ h.plan.nodup) (nodup_append.mp hnodup).1 hfront
  have hlastClear : (w.chain.dropLast.foldl (fun slots i => slots.set i none)
      w.slots)[place]? = some (some last) := (getElem?_clear hplaceFront).trans hlastSlot
  -- The last node splits what the slots hold once the others are gone, as it splits the live order.
  have hsplit := reduceOption_split hlastClear
  rw [hclear, h.slots, horder, filter_append, filter_cons_of_pos] at hsplit
  · have hapart : last ∉ pre ∧ last ∉ post := by
      have hnodup := h.plan.nodup
      rw [horder] at hnodup
      simpa using (nodup_cons.mp (nodup_middle.mp hnodup)).1
    obtain ⟨hleft, -, hright⟩ := (append_cons_inj_of_notMem
      (fun hmem => hapart.1 (mem_filter.mp hmem).1)
      (fun hmem => hapart.2 (mem_filter.mp hmem).1)).mp hsplit
    have hnew : w.plan.nextId ∉ ids.dropLast := fun hmem =>
      ne_nextId (h.plan.inArena _ (hholds.chained.subset (dropLast_subset _ hmem))) rfl
    rw [fusedSlots, reduceOption_set (lt_length_of_slot hlastClear), ← hleft, ← hright,
      withoutChain, filter_append, filter_cons_of_pos (by simpa using hnew)]
    rfl
  · simpa using fun hmem => hlastFront last hmem last (mem_singleton_self _) rfl

/-- Fusing the nodes of a chain keeps the slots in line with the plan. -/
theorem fuse (hI : Kept joinRoots I) (h : w.Sound I) (hholds : w.Holds joinRoots ids)
    (hfuse : w.fuse next = .ok (w', next')) : w'.Sound I := by
  obtain ⟨first, last, place, plan, hfirst, hlast, hplace, hleast, hplan, rfl⟩ :=
    hholds.fuse_eq_ok hfuse
  obtain ⟨hordered, pre, post, horder, hqOrder⟩ :=
    h.plan.replaceChain hholds.chained hfirst hlast hplan
  exact ⟨hordered, hI _ _ _ _ _ _ _ _ hholds.chained hleast hfirst hlast hplan h.known,
    (h.reduceOption_fusedSlots hholds hlast hplace horder).trans hqOrder.symm⟩

end Sound

/-- Between two steps the walk is sound, its chain is a chain, and it stands where that goes on. -/
structure Steady (I : Plan → Prop) (joinRoots : List NodeId) (w : ChainWalk) : Prop
    extends Sound I w where
  chained : ∃ ids, w.Holds joinRoots ids ∧ w.Follows ids

/-- A walk that forgets its chain may begin another one. -/
theorem Sound.restart (h : w.Sound I) : w.restart.Steady I joinRoots where
  plan := h.plan
  known := h.known
  slots := h.slots
  chained := ⟨[], ⟨rfl, .nil⟩, fun _ h => by cases h⟩

/-- A chain grows by the node at the current place. -/
theorem Holds.append (hholds : w.Holds joinRoots ids) (hcurrent : w.current? = some (place, id))
    (hchained : w.plan.Chained joinRoots (ids ++ [id]) stage) :
    (w.take place stage).Holds joinRoots (ids ++ [id]) where
  slots := by
    change (w.chain ++ [place]).map _ = _
    rw [map_append, map_append]
    refine congrArg₂ _ hholds.slots ?_
    exact congrArg (fun o => [o]) (current?_eq_some hcurrent).2
  chained := hchained

/-- The walk goes on to the only reader of the node that it has taken. -/
theorem Sound.take (h : w.Sound I) (hholds : w.Holds joinRoots ids) (hfollows : w.Follows ids)
    (hcurrent : w.current? = some (place, id))
    (hnext : w.plan.nextStage? joinRoots w.stage id = some stage) :
    (w.take place stage).toOnlyUse.Steady I joinRoots where
  plan := h.plan
  known := h.known
  slots := h.slots
  chained := by
    obtain ⟨-, hslot⟩ := current?_eq_some hcurrent
    have hchained := hholds.chained.next (h.mem_order hslot)
      (fun last hlast => (hfollows last hlast).2 place id hcurrent) hnext
    obtain ⟨hslots, hchained⟩ := hholds.append hcurrent hchained
    refine ⟨ids ++ [id], ⟨hslots, hchained⟩, fun last hlast => ?_⟩
    rw [getLast?_concat] at hlast
    obtain rfl := Option.some.inj hlast
    refine ⟨fun hgrouped => ?_, fun i n hn => ?_⟩
    · change stage = .grouped at hgrouped
      rcases nextStage?_eq_some hnext with ⟨-, h, -⟩ | ⟨-, h, -⟩ | ⟨-, h, -⟩ | ⟨-, -, hop⟩
      · cases hgrouped.symm.trans h
      · cases hgrouped.symm.trans h
      · cases hgrouped.symm.trans h
      · exact hop
    obtain ⟨hplace, hn⟩ := current?_eq_some hn
    obtain ⟨⟨j, m⟩, hsame, huse⟩ := Option.bind_eq_some_iff.mp hplace
    cases hcurrent.symm.trans hsame
    exact h.onlyUse? hslot huse hn

theorem Chained.of_start {p : Plan} (h : p.Chained joinRoots ids .start) : ids = [] := by
  cases h with
  | nil => rfl
  | next _ _ _ hnext =>
      rcases nextStage?_eq_some hnext with ⟨-, h, -⟩ | ⟨-, h, -⟩ | ⟨-, h, -⟩ | ⟨-, h, -⟩ <;> cases h

theorem visit_eq (w : ChainWalk) : ∃ visited, w.visit = { w with visited := visited } := by
  unfold visit
  split
  · split
    · exact ⟨_, rfl⟩
    · exact ⟨_, rfl⟩
  · exact ⟨_, rfl⟩

theorem Steady.visit (h : w.Steady I joinRoots) : w.visit.Steady I joinRoots := by
  obtain ⟨visited, hvisit⟩ := w.visit_eq
  obtain ⟨⟨hplan, hknown, hslots⟩, ids, ⟨hholds, hchained⟩, hfollows⟩ := h
  rw [hvisit]
  exact ⟨⟨hplan, hknown, hslots⟩, ids, ⟨hholds, hchained⟩, hfollows⟩

/-- The current place with the stage that the chain reaches there, if it goes on. -/
def advance? (joinRoots : List NodeId) (w : ChainWalk) : Option (Nat × ChainStage) := do
  let (place, id) ← w.current?
  return (place, ← w.plan.nextStage? joinRoots w.stage id)

theorem advance?_eq (w : ChainWalk) (joinRoots : List NodeId) (hstage : w.stage = stage) :
    w.advance? joinRoots = (do
      let (place, id) ← w.current?
      return (place, ← w.plan.nextStage? joinRoots stage id)) := by
  rw [advance?, hstage]

/-- The current node is the one that a chain goes on with. -/
theorem advance?_eq_some {found : Nat × ChainStage} (h : w.advance? joinRoots = some found) :
    ∃ id, w.current? = some (found.1, id) ∧
      w.plan.nextStage? joinRoots w.stage id = some found.2 := by
  obtain ⟨⟨i, id⟩, hcurrent, hnext⟩ := Option.bind_eq_some_iff.mp h
  obtain ⟨reached, hreached, hnext⟩ := Option.bind_eq_some_iff.mp hnext
  cases hnext
  exact ⟨id, hcurrent, hreached⟩

theorem Steady.advance (h : w.Steady I joinRoots) {found : Nat × ChainStage}
    (hnext : w.advance? joinRoots = some found) :
    (w.take found.1 found.2).toOnlyUse.Steady I joinRoots := by
  obtain ⟨id, hcurrent, hreached⟩ := advance?_eq_some hnext
  obtain ⟨ids, hholds, hfollows⟩ := h.chained
  exact h.take hholds hfollows hcurrent hreached

/-- The walk whose chain a step fuses: its chain goes no further, or only to a projection that ends
it. -/
inductive Closes (w : ChainWalk) : ChainWalk → Prop
  | whole : w.stage = .grouped ∨ w.stage = .projected ∧ 2 ≤ w.chain.length → Closes w w
  | ended {place : Nat} {id : NodeId} : w.stage = .grouped → w.current? = some (place, id) →
    w.plan.endsChain id = true → Closes w (w.take place .grouped).toUnvisited

/-- A step goes on with the chain. If it does not, it looks for a place to begin one, drops the
chain or fuses it. -/
theorem step_cases (joinRoots : List NodeId) (w : ChainWalk) :
    (∃ found, w.visit.advance? joinRoots = some found ∧
      w.step joinRoots = pure (w.visit.take found.1 found.2).toOnlyUse) ∨
    w.visit.advance? joinRoots = none ∧
      ((w.visit.stage = .start ∧ w.step joinRoots = pure w.visit.toUnvisited) ∨
      ((w.visit.stage = .filtered ∨ w.visit.stage = .projected ∧ w.visit.chain.length < 2) ∧
        w.step joinRoots = pure w.visit.restart) ∨
      ∃ u, w.visit.Closes u ∧ w.step joinRoots = do return (← u.fuse).restart) := by
  unfold ChainWalk.step
  dsimp only
  generalize w.visit = v
  cases hstage : v.stage with
  | grouped =>
      have hnone : v.advance? joinRoots = none := by
        rw [v.advance?_eq joinRoots hstage]
        cases v.current? <;> rfl
      refine .inr ⟨hnone, .inr (.inr ?_)⟩
      dsimp only
      cases hcurrent : v.current? with
      | none => exact ⟨v, .whole (.inl hstage), rfl⟩
      | some current =>
          dsimp only
          split
          · next hend => exact ⟨_, .ended hstage hcurrent hend, rfl⟩
          · exact ⟨v, .whole (.inl hstage), rfl⟩
  | start =>
      dsimp only
      rw [← v.advance?_eq joinRoots hstage]
      cases v.advance? joinRoots with
      | some found => exact .inl ⟨found, rfl, rfl⟩
      | none => exact .inr ⟨rfl, .inl ⟨rfl, rfl⟩⟩
  | filtered =>
      dsimp only
      rw [← v.advance?_eq joinRoots hstage]
      cases v.advance? joinRoots with
      | some found => exact .inl ⟨found, rfl, rfl⟩
      | none => exact .inr ⟨rfl, .inr (.inl ⟨.inl rfl, rfl⟩)⟩
  | projected =>
      dsimp only
      rw [← v.advance?_eq joinRoots hstage]
      cases v.advance? joinRoots with
      | some found => exact .inl ⟨found, rfl, rfl⟩
      | none =>
          refine .inr ⟨rfl, .inr ?_⟩
          dsimp only
          split
          · next hlength => exact .inr ⟨v, .whole (.inr ⟨hstage, hlength⟩), rfl⟩
          · next hlength => exact .inl ⟨.inr ⟨rfl, Nat.lt_of_not_le hlength⟩, rfl⟩

/-- A step fuses a chain. -/
theorem Steady.closes (h : w.Steady I joinRoots) (hcloses : w.Closes w') :
    w'.Sound I ∧ ∃ ids, w'.Holds joinRoots ids := by
  obtain ⟨ids, hholds, hfollows⟩ := h.chained
  cases hcloses with
  | whole => exact ⟨h.toSound, ids, hholds⟩
  | @ended place id hstage hcurrent hend =>
      have hchained := (hstage ▸ hholds.chained).close (h.mem_order (current?_eq_some hcurrent).2)
        (fun last hlast => (hfollows last hlast).2 place id hcurrent) hend
        (fun last hlast => (hfollows last hlast).1 hstage)
      obtain ⟨hslots, hchained⟩ := hholds.append hcurrent hchained
      exact ⟨⟨h.plan, h.known, h.slots⟩, ids ++ [id], hslots, hchained⟩

/-- A step of the walk keeps it steady. -/
theorem Steady.step (hI : Kept joinRoots I) (h : w.Steady I joinRoots)
    (hstep : w.step joinRoots next = .ok (w', next')) : w'.Steady I joinRoots := by
  have hv := h.visit
  rcases w.step_cases joinRoots with
    ⟨found, hnext, heq⟩ | ⟨-, ⟨hstage, heq⟩ | ⟨-, heq⟩ | ⟨u, hcloses, heq⟩⟩ <;> rw [heq] at hstep
  · exact (Fresh.pure_eq_ok.mp hstep).1 ▸ hv.advance hnext
  · obtain ⟨rfl, -⟩ := Fresh.pure_eq_ok.mp hstep
    obtain ⟨ids, hholds, -⟩ := hv.chained
    obtain rfl := Chained.of_start (hstage ▸ hholds.chained)
    exact ⟨⟨hv.plan, hv.known, hv.slots⟩, [], ⟨hholds.slots, hholds.chained⟩, nofun⟩
  · exact (Fresh.pure_eq_ok.mp hstep).1 ▸ hv.restart
  · obtain ⟨fused, n, hfused, hstep⟩ := Fresh.bind_eq_ok.mp hstep
    obtain ⟨hsound, ids, hholds⟩ := hv.closes hcloses
    exact (Fresh.pure_eq_ok.mp hstep).1 ▸ (hsound.fuse hI hholds hfused).restart

/-- A run of the walk keeps it steady. -/
theorem Steady.run (hI : Kept joinRoots I) (h : w.Steady I joinRoots) {fuel : Nat}
    (hrun : w.run joinRoots fuel next = .ok (w', next')) : w'.Steady I joinRoots := by
  induction fuel generalizing w next with
  | zero => exact (Fresh.pure_eq_ok.mp hrun).1 ▸ h
  | succ fuel ih =>
      rw [ChainWalk.run] at hrun
      split at hrun
      · exact (Fresh.pure_eq_ok.mp hrun).1 ▸ h
      · obtain ⟨v, n, hstep, hrun⟩ := Fresh.bind_eq_ok.mp hrun
        exact ih (h.step hI hstep) hrun

/-- The chain that is open at the end may be fused like any other. -/
theorem Steady.finish (hI : Kept joinRoots I) (h : w.Steady I joinRoots)
    (hfinish : w.finish next = .ok (w', next')) :
    w'.Sound I := by
  obtain ⟨ids, hholds, -⟩ := h.chained
  unfold ChainWalk.finish at hfinish
  cases hstage : w.stage with
  | projected | grouped =>
      rw [hstage] at hfinish
      dsimp only at hfinish
      split at hfinish
      · exact h.fuse hI hholds hfinish
      · exact (Fresh.pure_eq_ok.mp hfinish).1 ▸ h.toSound
  | start | filtered =>
      rw [hstage] at hfinish
      exact (Fresh.pure_eq_ok.mp hfinish).1 ▸ h.toSound

end ChainWalk

namespace Plan

/-- Fusing chains keeps every node behind its inputs, and what else each fusion keeps. -/
theorem fuseChains_induct {p q : Plan} {joinRoots : List NodeId} {next next' : Nat}
    {I : Plan → Prop} (hI : ChainWalk.Kept joinRoots I) (h : p.Ordered p.order) (hp : I p)
    (hq : p.fuseChains joinRoots next = .ok (q, next')) : q.Ordered q.order ∧ I q := by
  obtain ⟨w, n, hrun, hq⟩ := Fresh.bind_eq_ok.mp hq
  obtain ⟨v, n, hfinish, hq⟩ := Fresh.bind_eq_ok.mp hq
  obtain ⟨rfl, -⟩ := Fresh.pure_eq_ok.mp hq
  have hstart : (ChainWalk.ofPlan p).Steady I joinRoots :=
    { ChainWalk.Sound.ofPlan h hp with chained := ⟨[], ⟨rfl, .nil⟩, fun _ h => by cases h⟩ }
  have hend := (hstart.run hI hrun).finish hI hfinish
  exact ⟨hend.plan, hend.known⟩

/-- Fusing chains keeps a plan well-formed. -/
theorem fuseChains_wellFormed {p q : Plan} {joinRoots : List NodeId} {next next' : Nat}
    (h : p.WellFormed) (hq : p.fuseChains joinRoots next = .ok (q, next')) : q.WellFormed :=
  (fuseChains_induct (fun _ _ _ _ _ _ _ _ hchain hlength hfirst hlast hstep hp =>
    hp.replaceChain hchain hlength hfirst hlast hstep) h.arranged.toOrdered h hq).2

end Plan

end QueryPlan
