import QueryPlan.Proofs.ChainFusion.Replacement
/-!
# QueryPlan.Proofs.ChainFusion.History

**What became of a plan whose chains are fused.** Chains of the plan gave way to compounds
(`Plan.FusedChains`): each compound stands where the last node of its chain did and reads what the
first one read, the other nodes of the chains are gone, and everything else is renamed.

A fusion takes a chain of the plan as it is by then. Chains have no compounds, so its nodes are
nodes of the plan from the start that no earlier chain took. A node that went read a node of
its chain or what its compound reads, so the only reader of a node that stayed was that from the
start (`FusedChains.onlyReader`). So the chain is one of the plan from the start
(`FusedChains.chained_before`).
-/

namespace QueryPlan

open List

namespace Plan

variable {p q r : Plan} {chains : List (List NodeId)} {fused : NodeId → Option NodeId}
  {ids joinRoots : List NodeId} {first last n x y : NodeId} {stage : ChainStage} {next next' : Nat}

/-- Chains of a plan were fused, given the compound for the last node of each. -/
structure FusedChains (joinRoots : List NodeId) (p q : Plan) (chains : List (List NodeId))
    (fused : NodeId → Option NodeId) : Prop where
  chained : ∀ ids ∈ chains, 2 ≤ ids.length ∧ ∃ stage, p.Chained joinRoots ids stage
  disjoint : chains.flatten.Nodup
  order_eq : q.order =
    (p.order.filter fun n => !(chains.flatMap dropLast).contains n).map (topOf fused)
  fused_isSome_iff : ∀ n, (fused n).isSome = true ↔ ∃ ids ∈ chains, ids.getLast? = some n
  fused_new : ∀ n k, fused n = some k →
    p.arena.size ≤ k.index ∧ k ∈ q.order ∧ ∃ c, q.op k = .compound c
  fused_inj : ∀ a b k, fused a = some k → fused b = some k → a = b
  inputs_fused : ∀ ids ∈ chains, ∀ first ∈ ids.head?, ∀ last ∈ ids.getLast?, ∀ k ∈ fused last,
    q.inputs k = (p.inputs first).map (topOf fused)
  node_eq : ∀ n ∈ p.order, n ∉ chains.flatten → q.node n = (p.node n).renamed (topOf fused)

/-! ### Projections that end a chain -/

/-- What passes through under other handles passed through. -/
theorem isPassThrough_of_renamed {σ : NodeId → NodeId} {e : Expr}
    (hkeys : ∀ c, r.isFirstKey (c.renamed σ) = true → p.isFirstKey c = true)
    (h : r.isPassThrough (e.mapColumns (ColumnRef.renamed σ)) = true) :
    p.isPassThrough e = true := by
  rw [isPassThrough, Expr.isColumn_mapColumns, Bool.or_eq_true, Expr.leaves_mapColumns, all_map,
    all_eq_true] at h
  rw [isPassThrough, Bool.or_eq_true, all_eq_true]
  refine h.imp_right fun hleaves l hl => ?_
  have hleaf := hleaves l hl
  cases l with
  | column c => exact hkeys c hleaf
  | _ => exact hleaf

theorem endsChain_of_renamed {σ : NodeId → NodeId} (hnode : r.node n = (p.node n).renamed σ)
    (hkeys : ∀ c, r.isFirstKey (c.renamed σ) = true → p.isFirstKey c = true)
    (h : r.endsChain n = true) : p.endsChain n = true := by
  have hop : r.op n = (p.op n).mapExprs _ := congrArg Node.op hnode
  unfold endsChain at h ⊢
  rw [hop] at h
  cases hproject : p.op n with
  | project j =>
      rw [hproject] at h
      change (j.exprs.map _).all _ = true at h
      rw [all_map, all_eq_true] at h
      exact all_eq_true.mpr fun e he => isPassThrough_of_renamed hkeys (h e he)
  | _ =>
      rw [hproject] at h
      cases h

/-- No aggregate is new. -/
theorem Replaced.aggregate_before (f : Replaced p q ids first last) {a : Aggregate}
    (h : q.op n = .aggregate a) : p.op n = .aggregate a := by
  by_cases hnew : n = p.nextId
  · obtain ⟨c, hop⟩ := f.op_new
    rw [hnew] at h
    cases hop.symm.trans h
  · by_cases hstays : n ∈ p.order ∧ n ∉ ids
    · rw [Plan.op, f.node_eq n hstays.1 hstays.2, Node.op_renamed] at h
      change (p.op n).mapExprs _ = _ at h
      cases hop : p.op n with
      | aggregate b =>
          rw [hop] at h
          exact h
      | _ =>
          rw [hop] at h
          cases h
    · rw [not_and_or, not_not] at hstays
      rw [← h, Plan.op, Plan.op, f.node_other n hstays.symm hnew]

/-- What no chain took stands in front of the last node of no chain. -/
theorem not_mem_front (hn : n ∉ chains.flatten) : n ∉ chains.flatMap dropLast := by
  intro hmem
  obtain ⟨ids, hids, hfront⟩ := mem_flatMap.mp hmem
  exact hn (mem_flatten.mpr ⟨ids, hids, dropLast_subset _ hfront⟩)

namespace FusedChains

theorem refl (joinRoots : List NodeId) (p : Plan) : FusedChains joinRoots p p [] fun _ => none where
  chained := nofun
  disjoint := nodup_nil
  order_eq := by
    change p.order = (p.order.filter fun _ => true).map fun n => n
    rw [filter_true, map_id']
  fused_isSome_iff _ := ⟨nofun, nofun⟩
  fused_new := nofun
  fused_inj := nofun
  inputs_fused := nofun
  node_eq _ _ _ := (Node.renamed_id _).symm

section

variable (hs : FusedChains joinRoots p r chains fused)
include hs

theorem fused_eq_none (hn : n ∉ chains.flatten) : fused n = none := by
  refine Option.not_isSome_iff_eq_none.mp fun hsome => ?_
  obtain ⟨ids, hids, hlast⟩ := (hs.fused_isSome_iff n).mp hsome
  exact hn (mem_flatten.mpr ⟨ids, hids, mem_of_getLast? hlast⟩)

/-- A chain has a compound, for its last node. -/
theorem exists_fused (hids : ids ∈ chains) (hn : n ∈ ids) :
    ∃ last k, ids.getLast? = some last ∧ fused last = some k := by
  obtain ⟨last, hlast⟩ := Option.isSome_iff_exists.mp (getLast?_isSome.mpr (ne_nil_of_mem hn))
  obtain ⟨k, hk⟩ := Option.isSome_iff_exists.mp ((hs.fused_isSome_iff last).mpr ⟨ids, hids, hlast⟩)
  exact ⟨last, k, hlast, hk⟩

theorem topOf_eq_self (hn : n ∉ chains.flatten) : topOf fused n = n := by
  rw [topOf, hs.fused_eq_none hn]
  rfl

/-- A chain leaves its last node a compound. -/
theorem not_mem_flatten (hn : n ∉ chains.flatMap dropLast) (hnone : fused n = none) :
    n ∉ chains.flatten := by
  intro htaken
  obtain ⟨ids, hids, hmem⟩ := mem_flatten.mp htaken
  obtain ⟨last, k, hlast, hk⟩ := hs.exists_fused hids hmem
  rw [← dropLast_append_getLast? last hlast, mem_append, mem_singleton] at hmem
  rcases hmem with hfront | rfl
  · exact hn (mem_flatMap.mpr ⟨ids, hids, hfront⟩)
  · cases hnone.symm.trans hk

/-- A node belongs to one chain. -/
theorem eq_of_mem {ids' : List NodeId} (hids : ids ∈ chains) (hids' : ids' ∈ chains)
    (hn : n ∈ ids) (hn' : n ∈ ids') : ids = ids' := by
  have : Std.Symm (@Disjoint NodeId) := ⟨fun _ _ => disjoint_symm⟩
  by_contra hne
  exact (nodup_flatten.mp hs.disjoint).2.forall hids hids' hne hn hn'

/-- What is live is a compound or was live before, and no chain took it. -/
theorem mem_order : n ∈ r.order ↔ (n ∈ p.order ∧ n ∉ chains.flatten) ∨ ∃ a, fused a = some n := by
  constructor
  · intro hn
    rw [hs.order_eq, mem_map] at hn
    obtain ⟨m, hm, rfl⟩ := hn
    obtain ⟨hm, hstays⟩ := mem_filter.mp hm
    cases hfused : fused m with
    | some k => exact .inr ⟨m, by rw [topOf, hfused]; rfl⟩
    | none =>
        have htaken := hs.not_mem_flatten (by simpa using hstays) hfused
        rw [hs.topOf_eq_self htaken]
        exact .inl ⟨hm, htaken⟩
  · rintro (⟨hn, hntaken⟩ | ⟨a, ha⟩)
    · rw [hs.order_eq, mem_map]
      refine ⟨n, mem_filter.mpr ⟨hn, ?_⟩, hs.topOf_eq_self hntaken⟩
      simpa using not_mem_front hntaken
    · exact (hs.fused_new a n ha).2.1

/-- Chains are made of nodes that no chain took yet. -/
theorem untaken (hchain : r.Chained joinRoots ids stage) (hn : n ∈ ids) :
    n ∈ p.order ∧ n ∉ chains.flatten := by
  refine (hs.mem_order.mp (hchain.subset hn)).resolve_right ?_
  rintro ⟨a, ha⟩
  obtain ⟨-, -, c, hop⟩ := hs.fused_new a n ha
  exact hchain.op_ne_compound n hn hop

variable (hp : p.Arranged p.order)
include hp

/-- A node of the plan from the start is read in place of no other node. -/
theorem topOf_ne (hx : x ∈ p.order) (hyx : y ≠ x) : topOf fused y ≠ x := by
  unfold topOf
  cases hfused : fused y with
  | none => exact hyx
  | some k =>
      rintro rfl
      exact absurd (hp.inArena _ hx) (Nat.not_lt_of_le (hs.fused_new y _ hfused).1)

/-- The only reader of a node was its only reader from the start. -/
theorem onlyReader (hx : x ∈ p.order) (hxuntaken : x ∉ chains.flatten) (hy : y ∈ p.order)
    (hyuntaken : y ∉ chains.flatten) (h : r.OnlyReader x y) : p.OnlyReader x y := by
  have hread : ∀ {l : List NodeId}, x ∈ l.map (topOf fused) ↔ x ∈ l := by
    intro l
    constructor
    · intro hmem
      obtain ⟨i, hi, htop⟩ := mem_map.mp hmem
      by_contra hxl
      exact hs.topOf_ne hp hx (fun hix => hxl (hix ▸ hi)) htop
    · exact fun hmem => mem_map.mpr ⟨x, hmem, hs.topOf_eq_self hxuntaken⟩
  have hinputs : ∀ m ∈ p.order, m ∉ chains.flatten → (x ∈ r.inputs m ↔ x ∈ p.inputs m) :=
    fun m hm hmuntaken => by
      rw [inputs, hs.node_eq m hm hmuntaken, Node.inputs_renamed]
      exact hread
  refine ⟨(hinputs y hy hyuntaken).mp h.1, fun m hm hmread => ?_⟩
  by_cases hmtaken : m ∈ chains.flatten
  · obtain ⟨ids, hids, hmids⟩ := mem_flatten.mp hmtaken
    obtain ⟨-, stage, hchain⟩ := hs.chained ids hids
    rcases hchain.inputs_eq hp hmids with hhead | ⟨i, hi, hminputs⟩
    · -- The compound reads what the first node did.
      obtain ⟨last, k, hlast, hk⟩ := hs.exists_fused hids hmids
      obtain ⟨hnew, hlive, -⟩ := hs.fused_new last k hk
      have hkread : x ∈ r.inputs k := by
        rw [hs.inputs_fused ids hids m hhead last hlast k hk]
        exact hread.mpr hmread
      obtain rfl := h.2 k hlive hkread
      exact absurd (hp.inArena k hy) (Nat.not_lt_of_le hnew)
    · rw [hminputs, mem_singleton] at hmread
      exact absurd (mem_flatten.mpr ⟨ids, hids, hmread ▸ hi⟩) hxuntaken
  · exact h.2 m (hs.mem_order.mpr (.inl ⟨hm, hmtaken⟩)) ((hinputs m hm hmtaken).mpr hmread)

/-- A chain is one of the plan from the start. -/
theorem chained_before
    (haggregates : ∀ n a, r.op n = .aggregate a → p.op n = .aggregate a)
    (hchain : r.Chained joinRoots ids stage) : p.Chained joinRoots ids stage := by
  have hkeys : ∀ c : ColumnRef,
      r.isFirstKey (c.renamed (topOf fused)) = true → p.isFirstKey c = true := by
    intro c hkey
    unfold isFirstKey at hkey ⊢
    cases hfused : fused c.source with
    | some k =>
        obtain ⟨-, -, d, hop⟩ := hs.fused_new c.source k hfused
        rw [ColumnRef.renamed, topOf, hfused, Option.getD_some, hop] at hkey
        cases hkey
    | none =>
        rw [ColumnRef.renamed, topOf, hfused, Option.getD_none] at hkey
        split at hkey
        · next a hop =>
          rw [haggregates _ a hop]
          exact hkey
        · cases hkey
  have hlinks : ∀ {ids : List NodeId} {id : NodeId} {stage : ChainStage},
      r.Chained joinRoots (ids ++ [id]) stage →
      (∀ l ∈ ids.getLast?, r.OnlyReader l id) → ∀ l ∈ ids.getLast?, p.OnlyReader l id := by
    intro ids id stage hchain hlink l hl
    obtain ⟨hl₁, hl₂⟩ := hs.untaken hchain (mem_append_left _ (mem_of_getLast? hl))
    obtain ⟨hid₁, hid₂⟩ := hs.untaken hchain (mem_append_right _ (mem_singleton_self id))
    exact hs.onlyReader hp hl₁ hl₂ hid₁ hid₂ (hlink l hl)
  induction hchain with
  | nil => exact .nil
  | @next ids id stage next hfront hid hlink hnext ih =>
      have hchain := hfront.next hid hlink hnext
      obtain ⟨hlive, huntaken⟩ := hs.untaken hchain (mem_append_right _ (mem_singleton_self id))
      refine ih.next hlive (hlinks hchain hlink) ?_
      rw [← nextStage?_of_renamed (hs.node_eq id hlive huntaken), hnext]
  | @close ids id hfront hid hlink hend haggregate ih =>
      have hchain := hfront.close hid hlink hend haggregate
      obtain ⟨hlive, huntaken⟩ := hs.untaken hchain (mem_append_right _ (mem_singleton_self id))
      exact ih.close hlive (hlinks hchain hlink)
        (endsChain_of_renamed (hs.node_eq id hlive huntaken) hkeys hend)
        fun l hl => (haggregate l hl).imp fun a hop => haggregates l a hop

end

section Step

variable (hs : FusedChains joinRoots p r chains fused) (hp : p.Arranged p.order)
  (hchain : r.Chained joinRoots ids stage) (hlast : ids.getLast? = some last)
  (f : Replaced r q ids first last)
include hs hp hchain hlast

/-- Renaming once more is renaming with the new compound. -/
theorem replaced_top (x : NodeId) : last.replaced r.nextId (topOf fused x) =
    topOf (Function.update fused last (some r.nextId)) x := by
  obtain ⟨hlive, huntaken⟩ := hs.untaken hchain (mem_of_getLast? hlast)
  exact replaced_topOf (hs.fused_eq_none huntaken) (hs.topOf_ne hp hlive)

include f

theorem step_order_eq : q.order =
    (p.order.filter fun n => !((ids :: chains).flatMap dropLast).contains n).map
      (topOf (Function.update fused last (some r.nextId))) := by
  have hsame : ∀ m, topOf fused m ∈ ids.dropLast ↔ m ∈ ids.dropLast := by
    intro m
    constructor
    · intro hmem
      by_contra hm
      have hne : m ≠ topOf fused m := fun heq => hm (by rw [heq]; exact hmem)
      exact hs.topOf_ne hp (hs.untaken hchain (dropLast_subset _ hmem)).1 hne rfl
    · intro hmem
      rwa [hs.topOf_eq_self (hs.untaken hchain (dropLast_subset _ hmem)).2]
  have hfilter : (p.order.filter fun m => ((fun n => !ids.dropLast.contains n) ∘ topOf fused) m &&
      !(chains.flatMap dropLast).contains m) =
      p.order.filter fun m => !((ids :: chains).flatMap dropLast).contains m :=
    filter_congr fun m _ => by simp [hsame m]
  rw [f.order_eq, hs.order_eq, filter_map, map_map, filter_filter, hfilter]
  exact map_congr_left fun m _ => hs.replaced_top hp hchain hlast m

theorem step_node_eq (hn : n ∈ p.order) (huntaken : n ∉ (ids :: chains).flatten) :
    q.node n = (p.node n).renamed (topOf (Function.update fused last (some r.nextId))) := by
  rw [flatten_cons, mem_append, not_or] at huntaken
  rw [f.node_eq n (hs.mem_order.mpr (.inl ⟨hn, huntaken.2⟩)) huntaken.1,
    hs.node_eq n hn huntaken.2, Node.renamed_renamed]
  exact Node.renamed_congr (fun i _ => hs.replaced_top hp hchain hlast i)
    fun c _ => hs.replaced_top hp hchain hlast c.source

omit hp in
/-- A compound stays live, and what it reads is renamed. -/
theorem compound_stays (hr : r.Arranged r.order) {k : NodeId} (hk : fused n = some k) :
    k ∈ q.order ∧ q.node k = (r.node k).renamed (last.replaced r.nextId) := by
  obtain ⟨-, hlive, c, hop⟩ := hs.fused_new n k hk
  have hkids : k ∉ ids := fun hmem => hchain.op_ne_compound k hmem hop
  exact ⟨(f.mem_order hr hchain hlast).mpr (.inr ⟨hlive, hkids⟩), f.node_eq k hlive hkids⟩

omit hp hchain hlast in
/-- If every node that was added is a compound of a chain, it still is. -/
theorem created_step
    (h : ∀ k : NodeId, p.arena.size ≤ k.index → k.index < r.arena.size → ∃ n, fused n = some k)
    (huntaken : last ∉ chains.flatten) (k : NodeId) (hle : p.arena.size ≤ k.index)
    (hlt : k.index < q.arena.size) : ∃ n, Function.update fused last (some r.nextId) n = some k := by
  by_cases hnew : k = r.nextId
  · exact ⟨last, by rw [Function.update_self, hnew]⟩
  · rw [f.size_eq] at hlt
    have hold : k.index < r.arena.size :=
      Nat.lt_of_le_of_ne (Nat.le_of_lt_succ hlt) fun heq => hnew (congrArg NodeId.mk heq)
    obtain ⟨n, hk⟩ := h k hle hold
    have hne : n ≠ last := by
      rintro rfl
      cases (hs.fused_eq_none huntaken).symm.trans hk
    exact ⟨n, by rw [Function.update_of_ne hne, hk]⟩

/-- The new compound reads what the first node of its chain did. -/
theorem inputs_nextId (hbefore : p.Chained joinRoots ids stage) (hfirst : ids.head? = some first) :
    q.inputs r.nextId =
      (p.inputs first).map (topOf (Function.update fused last (some r.nextId))) := by
  obtain ⟨hlive, huntaken⟩ := hs.untaken hchain (mem_of_head? hfirst)
  obtain ⟨input, hinput, hnew⟩ := f.inputs_new
  rw [hnew, ← hinput, inputs, hs.node_eq first hlive huntaken, Node.inputs_renamed]
  refine map_congr_left fun i hi => (topOf_update_of_ne fused ?_).symm
  exact ne_of_pair hp.nodup
    (hbefore.input_before hp.toOrdered hfirst hi last (mem_of_getLast? hlast))

end Step

/-- One more chain is fused. -/
theorem step (hs : FusedChains joinRoots p r chains fused) (hp : p.Arranged p.order)
    (hr : r.Arranged r.order) (hsize : p.arena.size ≤ r.arena.size)
    (haggregates : ∀ n a, r.op n = .aggregate a → p.op n = .aggregate a)
    (hchain : r.Chained joinRoots ids stage) (hlength : 2 ≤ ids.length)
    (hfirst : ids.head? = some first) (hlast : ids.getLast? = some last)
    (f : Replaced r q ids first last) :
    FusedChains joinRoots p q (ids :: chains) (Function.update fused last (some r.nextId)) where
  chained := forall_mem_cons.mpr
    ⟨⟨hlength, stage, hs.chained_before hp haggregates hchain⟩, hs.chained⟩
  disjoint := by
    rw [flatten_cons]
    exact nodup_append.mpr ⟨hchain.nodup hr.toOrdered, hs.disjoint,
      fun a ha b hb hab => (hs.untaken hchain ha).2 (hab ▸ hb)⟩
  order_eq := hs.step_order_eq hp hchain hlast f
  fused_isSome_iff n := by
    by_cases hnlast : n = last
    · rw [hnlast, Function.update_self]
      exact iff_of_true rfl ⟨ids, mem_cons_self, hlast⟩
    · rw [Function.update_of_ne hnlast, hs.fused_isSome_iff]
      refine ⟨fun ⟨ids', hids', h⟩ => ⟨ids', mem_cons_of_mem _ hids', h⟩,
        fun ⟨ids', hids', h⟩ => ?_⟩
      rcases mem_cons.mp hids' with rfl | hids'
      · exact absurd (Option.some.inj (h.symm.trans hlast)) hnlast
      · exact ⟨ids', hids', h⟩
  fused_new n k hk := by
    by_cases hnlast : n = last
    · rw [hnlast, Function.update_self] at hk
      cases hk
      exact ⟨hsize, (f.mem_order hr hchain hlast).mpr (.inl rfl), f.op_new⟩
    · rw [Function.update_of_ne hnlast] at hk
      obtain ⟨hnew, -, c, hop⟩ := hs.fused_new n k hk
      obtain ⟨hlive, hnode⟩ := hs.compound_stays hchain hlast f hr hk
      refine ⟨hnew, hlive, ?_⟩
      rw [Plan.op, hnode, Node.op_renamed]
      change ∃ c, (r.op k).mapExprs _ = .compound c
      rw [hop]
      exact ⟨_, rfl⟩
  fused_inj := update_inj hs.fused_inj fun a ha =>
    ne_nextId (hr.inArena _ (hs.fused_new a _ ha).2.1) rfl
  inputs_fused ids' hids' first' hfirst' last' hlast' k hk := by
    rcases mem_cons.mp hids' with rfl | hids'
    · obtain rfl := Option.some.inj (hfirst.symm.trans hfirst')
      obtain rfl := Option.some.inj (hlast.symm.trans hlast')
      rw [Function.update_self] at hk
      cases hk
      exact hs.inputs_nextId hp hchain hlast f (hs.chained_before hp haggregates hchain) hfirst
    · have hne : last' ≠ last := by
        rintro rfl
        exact (hs.untaken hchain (mem_of_getLast? hlast)).2
          (mem_flatten.mpr ⟨ids', hids', mem_of_getLast? hlast'⟩)
      rw [Option.mem_def, Function.update_of_ne hne] at hk
      have hkread : (r.node k).inputs = _ :=
        hs.inputs_fused ids' hids' first' hfirst' last' hlast' k hk
      rw [inputs, (hs.compound_stays hchain hlast f hr hk).2, Node.inputs_renamed, hkread, map_map]
      exact map_congr_left fun i _ => hs.replaced_top hp hchain hlast i
  node_eq n hn huntaken := hs.step_node_eq hp hchain hlast f hn huntaken

end FusedChains

/-- What is known of a plan and of the chains of it that were fused, known from the start, is known
at the end if the fusion of one more chain keeps it. -/
theorem Arranged.fusedChains_induct
    {motive : Plan → List (List NodeId) → (NodeId → Option NodeId) → Prop}
    (h : p.Arranged p.order) (start : motive p [] fun _ => none)
    (step : ∀ {r r' : Plan} {chains : List (List NodeId)} {fused : NodeId → Option NodeId}
      {ids : List NodeId} {stage : ChainStage} {first last : NodeId} {n n' : Nat},
      FusedChains joinRoots p r chains fused → r.Arranged r.order →
      (∀ n a, r.op n = .aggregate a → p.op n = .aggregate a) →
      r.Chained joinRoots ids stage → 2 ≤ ids.length → ids.head? = some first →
      ids.getLast? = some last → r.replaceChain ids first last n = .ok (r', n') →
      motive r chains fused →
      motive r' (ids :: chains) (Function.update fused last (some r.nextId)))
    (hq : p.fuseChains joinRoots next = .ok (q, next')) :
    ∃ chains fused, FusedChains joinRoots p q chains fused ∧ motive q chains fused := by
  have hkept : ChainWalk.Kept joinRoots fun r => r.Arranged r.order ∧ p.arena.size ≤ r.arena.size ∧
      (∀ n a, r.op n = .aggregate a → p.op n = .aggregate a) ∧
      ∃ chains fused, FusedChains joinRoots p r chains fused ∧ motive r chains fused := by
    rintro r r' ids stage first last next next' hchain hlength hfirst hlast hr'
      ⟨hr, hsize, haggregates, chains, fused, hs, hmotive⟩
    have f := hr.toOrdered.replaced hchain hlast hr'
    obtain ⟨hordered, -⟩ := hr.toOrdered.replaceChain hchain hfirst hlast hr'
    exact ⟨f.arranged hr hchain hlast hordered, f.size_eq ▸ Nat.le_succ_of_le hsize,
      fun n a hop => haggregates n a (f.aggregate_before hop), _, _,
      hs.step h hr hsize haggregates hchain hlength hfirst hlast f,
      step hs hr haggregates hchain hlength hfirst hlast hr' hmotive⟩
  exact (fuseChains_induct hkept h.toOrdered
    ⟨h, Nat.le_refl _, fun _ _ hop => hop, _, _, .refl joinRoots p, start⟩ hq).2.2.2.2

/-- **What fusing chains does.** -/
theorem Arranged.fusedChains (h : p.Arranged p.order)
    (hq : p.fuseChains joinRoots next = .ok (q, next')) :
    ∃ chains fused, FusedChains joinRoots p q chains fused := by
  obtain ⟨chains, fused, hs, -⟩ := h.fusedChains_induct (motive := fun _ _ _ => True) trivial
    (fun _ _ _ _ _ _ _ _ _ => trivial) hq
  exact ⟨chains, fused, hs⟩

end Plan

end QueryPlan
