import QueryPlan.Proofs.Scope.ChainWalk
import QueryPlan.Proofs.Scope.Pruning
import QueryPlan.Proofs.Shape.Removal
import QueryPlan.Proofs.WindowNarrowing.Step
/-!
# QueryPlan.Proofs.Shape.Projections

**Names under passes that change projections.** A projection has columns of its own, so what goes
on below it renames nothing. A node that takes the place of a projection, the upper half of one
taken apart or the compound of a chain, has its names. A projection that loses columns is not seen
from the root.
-/

namespace QueryPlan

open List

namespace Plan

variable {p q : Plan} {id x : NodeId} {next next' : Nat}

/-! ### Narrow inputs -/

/-- The new projection has columns of its own, and only a projection reads it. -/
theorem NarrowedAt.rootNames_eq {input : NodeId} {used : List Nat}
    (f : NarrowedAt p q id input used) : q.rootNames = p.rootNames := by
  have hnames : ∀ x ∈ p.order, q.columnNames x = p.columnNames x := by
    refine f.inSight.arranged.induction fun x hx ih => ?_
    rw [f.arranged.columnNames_eq (f.mem_order.mpr (.inr hx)),
      f.inSight.arranged.columnNames_eq hx, f.layout_eq hx]
    by_cases hxid : x = id
    · obtain ⟨j, hop, -⟩ := f.narrowable.windowed
      rw [hxid, hop]
      rfl
    · rw [f.inputs_other hx hxid, map_congr_left ih]
  obtain ⟨pre, post, hbefore, hafter⟩ := f.order_eq
  have hroot : q.root? = p.root? := by
    rw [root?, root?, hafter, hbefore, getLast?_append, getLast?_append, getLast?_cons_cons]
  rw [rootNames, rootNames, hroot]
  exact Option.map_congr fun root hroot => hnames root (mem_of_getLast? hroot)

theorem narrowWindow_rootNames (h : p.WellFormed) (hid : id ∈ p.order)
    (hq : p.narrowWindow id next = .ok (q, next')) : q.rootNames = p.rootNames := by
  rcases h.toScoped.narrowWindow_inv hid hq with rfl | ⟨input, used, f⟩
  · rfl
  · exact f.rootNames_eq

theorem narrowWindows_rootNames (h : p.WellFormed)
    (hq : p.narrowWindows next = .ok (q, next')) : q.rootNames = p.rootNames :=
  (h.insertions_induct (motive := fun r => r.rootNames = p.rootNames) hq rfl
    fun _ _ _ _ _ hr hid hnames hstep => ⟨narrowWindow_wellFormed hr hid hstep,
      (narrowWindow_rootNames hr hid hstep).trans hnames⟩).2

/-! ### Windows on their own -/

theorem separateWindow_rootNames (h : p.WellFormed) (hid : id ∈ p.order)
    (hq : p.separateWindow id next = .ok (q, next')) : q.rootNames = p.rootNames := by
  have hqWf := (separateWindow_wellFormed h hid hq).1
  rcases separateWindow_cases hq with rfl | ⟨j, buildId, r, hop, hr, hq⟩
  · rfl
  obtain ⟨pre, post, f⟩ := h.takenApart hid hop hr
  have hne : ∀ x ∈ p.order, x ≠ p.nextId := fun x hx => ne_nextId (h.inArena hx)
  have hrewired := (f.redirection hq).toRewired
  have hidNames : p.columnNames id = j.fields :=
    h.arranged.columnNames_of_own hid (by rw [hop]; rfl)
  -- The upper half has the names of the projection, and what read the projection reads it.
  have hnames := hqWf.arranged.columnNames_unique (l := q.order)
    (g := fun x => if x = p.nextId then j.fields else
      if x = id then (p.lowerHalf id j).fields else p.columnNames x) fun x hx => ?_
  · have hlive : p.nextId ∈ q.order := by
      rw [hrewired.order_eq]
      exact f.mem_order.mpr (.inl rfl)
    rw [rootNames, rootNames, root?, root?, hrewired.order_eq, f.order_eq, f.order_before]
    rcases eq_nil_or_concat' post with rfl | ⟨front, last, rfl⟩
    · rw [append_cons, getLast?_concat, getLast?_concat, Option.map_some, Option.map_some,
        hnames _ hlive, if_pos rfl, hidNames]
    · have hlast : last ∈ p.order := by rw [f.order_before]; simp
      have hlastNe : last ≠ id := by
        rintro rfl
        have hnodup := h.nodup
        rw [f.order_before] at hnodup
        exact (nodup_cons.mp (nodup_append.mp hnodup).2.1).1 (by simp)
      have hlastLive : last ∈ q.order := by
        rw [hrewired.order_eq]
        exact f.mem_order.mpr (.inr hlast)
      rw [← cons_append, ← cons_append, ← append_assoc, getLast?_concat, ← cons_append,
        ← append_assoc, getLast?_concat, Option.map_some, Option.map_some, hnames _ hlastLive,
        if_neg (hne last hlast), if_neg hlastNe]
  · rw [hrewired.op_layout]
    rcases f.mem_order.mp (hrewired.order_eq ▸ hx) with rfl | hlive
    · rw [if_pos rfl, f.op_upper]
      rfl
    · rw [if_neg (hne x hlive)]
      by_cases hxid : x = id
      · rw [if_pos hxid, hxid, f.op_lower]
        rfl
      · have hchanged : x ∈ r.order.filter fun n => n != p.nextId :=
          mem_filter.mpr ⟨f.mem_order.mpr (.inr hlive), bne_iff_ne.mpr (hne x hlive)⟩
        rw [if_neg hxid, h.arranged.columnNames_eq hlive, hrewired.inputs_eq hchanged,
          f.op_other hlive hxid, f.inputs_other hlive, map_map]
        refine congrArg _ (map_congr_left fun i hi => ?_)
        have hi : i ∈ p.order := h.arranged.mem_of_input hlive hi
        rw [Function.comp_apply]
        by_cases hiid : i = id
        · rw [hiid, NodeId.replaced_self, if_pos rfl, hidNames]
        · rw [NodeId.replaced_of_ne _ hiid, if_neg (hne i hi), if_neg hiid]

theorem separateWindows_rootNames (h : p.WellFormed)
    (hq : p.separateWindows next = .ok (q, next')) : q.rootNames = p.rootNames :=
  (h.insertions_induct (motive := fun r => r.rootNames = p.rootNames) hq rfl
    fun _ _ _ _ _ hr hid hnames hstep => ⟨separateWindow_wellFormed hr hid hstep,
      (separateWindow_rootNames hr hid hstep).trans hnames⟩).2

/-! ### Columns that nothing reads -/

/-- The root carries no columns of a projection whose columns that are read are known. -/
theorem Carries.ne_root {root : Option NodeId} {used : List Nat} (h : p.Carries id x)
    (husage : p.usage root id = .ok (some used)) : root ≠ some x := by
  obtain ⟨k, u, hu⟩ := h.of_usage husage
  obtain ⟨k, rfl, hknown⟩ := usageWithin_eq_some hu
  exact hknown.not_root

theorem dropDeadColumns_rootNames (h : p.WellFormed) (hid : id ∈ p.order)
    (hq : dropDeadColumns p.root? p id = .ok q) : q.rootNames = p.rootNames := by
  rcases dropDeadColumns_cases h.arranged hid hq with
    rfl | ⟨j, used, kept, visits, hop, -, husage, -, -, -, hskeleton⟩
  · rfl
  have hroot : q.root? = p.root? := by
    rw [root?, hskeleton.order_eq]
    rfl
  rw [rootNames, rootNames, hroot, hskeleton.columnNames_eq]
  refine Option.map_congr fun root hroot => ?_
  exact columnNames_narrow h.arranged hid hop husage root (mem_of_getLast? hroot) fun hcarries =>
    hcarries.ne_root husage hroot

theorem eliminateDeadColumns_rootNames (h : p.WellFormed)
    (hq : p.eliminateDeadColumns = .ok q) : q.rootNames = p.rootNames := by
  refine (Result.foldlM_keeps (motive := fun r => (r.WellFormed ∧ r.order = p.order) ∧
    r.rootNames = p.rootNames) hq ⟨⟨h, rfl⟩, rfl⟩ fun id hid r s hr hs => ?_).2
  obtain ⟨⟨hwf, horder⟩, hnames⟩ := hr
  have hid : id ∈ r.order := horder ▸ mem_reverse.mp hid
  have hroot : p.root? = r.root? := by rw [root?, root?, horder]
  obtain ⟨hs', hsOrder⟩ := hwf.dropDeadColumns hid hs
  exact ⟨⟨hs', hsOrder.trans horder⟩,
    (dropDeadColumns_rootNames hwf hid (hroot ▸ hs)).trans hnames⟩

/-! ### Chains -/

theorem replaceChain_rootNames {joinRoots ids : List NodeId} {stage : ChainStage}
    {first last : NodeId} (h : p.WellFormed) (hchain : p.Chained joinRoots ids stage)
    (hlength : 2 ≤ ids.length) (hfirst : ids.head? = some first)
    (hlast : ids.getLast? = some last)
    (hq : p.replaceChain ids first last next = .ok (q, next')) : q.rootNames = p.rootNames := by
  obtain ⟨r, input, pre, post, hinput, hr, hqOrder, hstays, hwf, hred⟩ :=
    h.redirection_of_replaceChain hchain hlength hfirst hlast hq
  have hrNames : ∀ x ∈ p.order, r.columnNames x = p.columnNames x :=
    h.arranged.columnNames_congr hr.size_le (fun x hx => by rw [op_congr (hr.node_eq x hx)])
      fun x hx => inputs_congr (hr.node_eq x hx)
  have hshape : SameShape q { q with order := r.order } := .of_arena_eq rfl
  have hnames := hred.columnNames_eq hr.wellFormed.arranged.toOrdered
    (hr.order_eq ▸ hwf.arranged.toOrdered)
  rw [hshape.columnNames_eq] at hnames
  have hnew : p.nextId ∉ ids.dropLast := fun hmem =>
    ne_nextId (h.inArena (hchain.subset (dropLast_subset _ hmem))) rfl
  have hlastNames : q.columnNames p.nextId = p.columnNames last := by
    rw [hnames _ (by rw [hr.order_eq]; simp) fun _ => hr.names, hr.names,
      hrNames last (hchain.subset (mem_of_getLast? hlast))]
  have hbehind := hchain.not_mem_behind h.arranged.toOrdered hlast hr.order_before
  rw [rootNames, rootNames, root?, root?, hqOrder, withoutChain, hr.order_before, filter_append,
    filter_cons_of_pos (by simpa using hnew)]
  rcases eq_nil_or_concat' post with rfl | ⟨front, last', rfl⟩
  · rw [filter_nil, getLast?_concat, getLast?_concat, Option.map_some, Option.map_some,
      hlastNames]
  · have hstay : (!ids.dropLast.contains last') = true := by simpa using hbehind last' (by simp)
    rw [filter_append, filter_cons_of_pos (p := fun n => !ids.dropLast.contains n) hstay,
      filter_nil, ← cons_append, ← append_assoc, getLast?_concat, ← cons_append, ← append_assoc,
      getLast?_concat, Option.map_some, Option.map_some,
      hnames last' (by rw [hr.order_eq]; simp) fun _ => hr.names,
      hrNames last' (by rw [hr.order_before]; simp)]

theorem fuseChains_rootNames {joinRoots : List NodeId} (h : p.WellFormed)
    (hq : p.fuseChains joinRoots next = .ok (q, next')) : q.rootNames = p.rootNames :=
  (fuseChains_induct (I := fun r => r.WellFormed ∧ r.rootNames = p.rootNames)
    (fun _ _ _ _ _ _ _ _ hchain hlength hfirst hlast hstep hr =>
      ⟨hr.1.replaceChain hchain hlength hfirst hlast hstep,
        (replaceChain_rootNames hr.1 hchain hlength hfirst hlast hstep).trans hr.2⟩)
    h.arranged.toOrdered ⟨h, rfl⟩ hq).2.2

end Plan

end QueryPlan
