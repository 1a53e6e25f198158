import QueryPlan.Proofs.Scope.Removal
/-!
# QueryPlan.Proofs.LiveOrder.Removal

**Taking nodes out keeps the others behind their inputs.** What reads a node may read an input of
that node instead, for the input stands further up front (`Ordered.rewired_to_input`). Once nothing
reads the node it may leave (`Ordered.remove`). Nothing more is needed of the plan than its order:
neither arities nor references.
-/

namespace QueryPlan

open List

namespace Plan

variable {p q : Plan} {id input : NodeId} {mapping : Option ColumnMap}

/-! ### Bypasses -/

/-- What reads a node may read an input of that node instead. -/
theorem Ordered.rewired_to_input {changed : List NodeId} (h : p.Ordered p.order)
    (hid : id ∈ p.order) (hinput : input ∈ p.inputs id)
    (hr : Rewired p q id input mapping changed) : q.Ordered p.order :=
  hr.ordered h fun n _ hn hread =>
    pair_sublist_trans h.nodup (h.before id hid input hinput) (h.before n hn id hread)

/-- A node may be bypassed. -/
theorem Ordered.bypass (h : p.Ordered p.order) (hid : id ∈ p.order)
    (hq : p.bypass id mapping = .ok q) :
    q.Ordered q.order ∧ q.order = p.order.filter fun n => n != id := by
  obtain ⟨input, r, hinputs, hloop, rfl⟩ := bypass_eq_ok hq
  have hinput : input ∈ p.inputs id := hinputs ▸ mem_singleton_self input
  have hr := replaceInputEverywhere_rewired hloop h.nodup h.inArena
  have hrOrdered := h.rewired_to_input hid hinput hr
  rw [← hr.order_eq] at hrOrdered
  refine ⟨hrOrdered.remove fun n hn hnid => ?_, by rw [order_remove, hr.order_eq]⟩
  rw [hr.order_eq] at hn
  by_cases hn' : n = input
  · rw [hr.inputs_other (by simp [hn']), hn']
    exact h.not_reads_of_input hid hinput
  · exact hr.not_mem_inputs_old (by simp [hn, hn'])
      (ne_of_pair h.nodup (h.before id hid input hinput))

/-! ### Passes -/

theorem markNops_ordered (h : p.Ordered p.order) (hq : p.markNops = .ok q) :
    q.Ordered q.order := by
  refine removals_induct (motive := fun _ r => r.Ordered r.order) h.nodup hq h
    fun _ id _ r r' _ _ hr hstep => ?_
  rcases markNop_cases hstep with rfl | ⟨a, -, rfl⟩
  · exact ⟨hr, nothing_removed rfl⟩
  · exact ⟨hr.setOp id _, nothing_removed rfl⟩

theorem simplifySorts_ordered (h : p.Ordered p.order) (hq : p.simplifySorts = .ok q) :
    q.Ordered q.order :=
  simplifySorts_induct (motive := fun r => r.Ordered r.order) h.nodup hq h
    fun _ _ _ _ hearlier _ hr _ hbypass => hr.bypass hearlier hbypass

theorem eliminateCopies_ordered (h : p.Ordered p.order) (hq : p.eliminateCopies = .ok q) :
    q.Ordered q.order := by
  refine removals_induct (motive := fun _ r => r.Ordered r.order) h.nodup hq h
    fun _ id _ r r' _ hid hr hstep => ?_
  rcases eliminateCopy_cases hstep with rfl | ⟨j, -, -, -, hbypass⟩
  · exact ⟨hr, nothing_removed rfl⟩
  · obtain ⟨hr', horder⟩ := hr.bypass hid hbypass
    exact ⟨hr', only_self_removed (.inr horder)⟩

/-- A filter that nothing else reads may go into the one that reads it. -/
theorem foldFilter_ordered (h : p.Ordered p.order) (hid : id ∈ p.order)
    (hq : p.foldFilter id = .ok q) :
    q.Ordered q.order ∧ q.order <+ p.order ∧
      ∀ x ∈ p.order, x ∉ q.order → x = id ∨ [x, id] <+ p.order := by
  rcases foldFilter_cases hq with rfl |
    ⟨f, inner, g, input, r, -, hinner, -, huse, hinput, hr, rfl⟩
  · exact ⟨h, nothing_removed rfl⟩
  have hread : inner ∈ p.inputs id := hinner ▸ mem_singleton_self inner
  have hpair := h.before id hid inner hread
  have hlive : inner ∈ p.order := mem_left hpair
  have hinput' : input ∈ p.inputs inner := hinput ▸ mem_singleton_self input
  have hred := replaceInput_rewired (h.inArena id hid) hr
  have hrOrdered := h.rewired_to_input hlive hinput' hred
  rw [← hred.order_eq] at hrOrdered
  have hin : id.index < r.arena.size := hrOrdered.inArena id (hred.order_eq ▸ hid)
  obtain ⟨hshape, horder⟩ := mergeCondition_sameShape hin g.condition
  refine ⟨(hrOrdered.of_sameShape hshape horder).remove fun n hn _ => ?_, ?_⟩
  · rw [hshape.inputs_eq]
    by_cases hnid : n = id
    · rw [hnid]
      exact hred.not_mem_inputs_old (mem_singleton_self id)
        (ne_of_pair h.nodup (h.before inner hlive input hinput'))
    · rw [hred.inputs_other (by simpa using hnid)]
      rw [horder, hred.order_eq] at hn
      exact fun hmem => hnid (reader_unique huse hn hmem hid hread)
  · rw [order_remove, horder, hred.order_eq]
    refine ⟨filter_sublist, fun x hx hx' => .inr ?_⟩
    rw [mem_filter, not_and] at hx'
    obtain rfl : x = inner := by simpa using hx' hx
    exact hpair

theorem foldFilters_ordered (h : p.Ordered p.order) (hq : p.foldFilters = .ok q) :
    q.Ordered q.order :=
  removals_induct (motive := fun _ r => r.Ordered r.order) h.nodup hq h
    fun _ _ _ _ _ _ hid hr hstep => foldFilter_ordered hr hid hstep

theorem hoistConditions_ordered (h : p.Ordered p.order) (hq : p.hoistConditions = .ok q) :
    q.Ordered q.order := by
  refine removals_induct (motive := fun _ r => r.Ordered r.order) h.nodup hq h
    fun _ id _ r r' _ hid hr hstep => ?_
  rcases hoistCondition_cases hstep with rfl | ⟨f, joinId, j, condition, -, -, -, -, -, hrest⟩
  · exact ⟨hr, nothing_removed rfl⟩
  have hset := hr.setOp joinId (.join { j with condition := condition })
  rcases hrest with ⟨remaining, -, rfl⟩ | hbypass
  · exact ⟨hset.setOp id _, nothing_removed rfl⟩
  · obtain ⟨hr', horder⟩ := hset.bypass hid hbypass
    exact ⟨hr', only_self_removed (.inr horder)⟩

end Plan

end QueryPlan
