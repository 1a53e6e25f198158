import QueryPlan.Pass.DeadColumns
import QueryPlan.Proofs.LiveOrder.Removal
import QueryPlan.Proofs.Scope.Windows
/-!
# QueryPlan.Proofs.LiveOrder.Insertion

**New nodes and moved columns keep every node behind its inputs.** A projection that goes below
another one stands right before it, one that goes above stands right behind it and in front of
everything that reads it (`Ordered.insert_live`). Moving the columns of a node lets its readers read
the node that they read already, however many paths lead to them (`remapWithin_ordered`).
-/

namespace QueryPlan

open List

namespace Plan

variable {p q : Plan} {id : NodeId} {next next' : Nat}

/-! ### Projections below and above others -/

theorem narrowWindow_ordered (h : p.Ordered p.order) (hid : id ∈ p.order)
    (hq : p.narrowWindow id next = .ok (q, next')) : q.Ordered q.order ∧ p.order ⊆ q.order := by
  rcases narrowWindow_cases hq with rfl | ⟨j, input, buildId, r, -, hinputs, -, hr, hq⟩
  · exact ⟨h, Subset.refl _⟩
  obtain ⟨pre, post, horder, rfl⟩ := insertBefore_eq_ok hr
  have hpre : input ∈ pre := (horder ▸ h).inputs_before (hinputs ▸ mem_singleton_self input)
  have hnew := h.insert_live horder (n := narrowing buildId input (positionsRead input j.exprs))
    (by simp [narrowing, Node.make, hpre])
  have hred := replaceInput_rewired (hnew.inArena id (by simp)) hq
  rw [hred.order_eq]
  refine ⟨hred.ordered hnew fun n hn _ _ => ?_, fun x hx => ?_⟩
  · rw [mem_singleton.mp hn, append_cons]
    exact pair_sublist_of_mem (by simp) mem_cons_self
  · rw [mem_middle_iff, ← horder]
    exact .inr hx

theorem narrowWindows_ordered (h : p.Ordered p.order)
    (hq : p.narrowWindows next = .ok (q, next')) : q.Ordered q.order :=
  insertions_induct (motive := fun r => r.Ordered r.order) hq h
    fun _ _ _ _ _ hid hr hstep => narrowWindow_ordered hr hid hstep

theorem separateWindow_ordered (h : p.Ordered p.order)
    (hq : p.separateWindow id next = .ok (q, next')) : q.Ordered q.order ∧ p.order ⊆ q.order := by
  rcases separateWindow_cases hq with rfl | ⟨j, buildId, r, -, hr, hq⟩
  · exact ⟨h, Subset.refl _⟩
  generalize hp₀ : p.setOp id (.project (p.lowerHalf id j)) = p₀ at hr
  have hset : p₀.Ordered p₀.order := hp₀ ▸ h.setOp id _
  have hnext : p₀.nextId = p.nextId := by rw [← hp₀, nextId, size_setOp]; rfl
  have hlive : p₀.order = p.order := by rw [← hp₀, order_setOp]
  obtain ⟨pre, post, horder, rfl⟩ := insertAfter_eq_ok hr
  rw [hnext] at hq
  generalize hnode : Node.make _ _ _ = node at hq
  rw [append_cons] at horder
  have hnew := hset.insert_live horder (n := node) (by simp [← hnode, Node.make])
  rw [hnext, append_assoc, singleton_append] at hnew
  have hred := replaceInputEverywhere_rewired hq hnew.nodup hnew.inArena
  rw [hred.order_eq]
  refine ⟨hred.ordered hnew fun n hn hlive hread => ?_, fun x hx => ?_⟩
  · exact (pair_next hnew.nodup rfl (hnew.before n hlive id hread)
      (by simpa using (mem_filter.mp hn).2)).2
  · rw [append_cons, mem_middle_iff, ← horder, hlive]
    exact .inr hx

theorem separateWindows_ordered (h : p.Ordered p.order)
    (hq : p.separateWindows next = .ok (q, next')) : q.Ordered q.order :=
  insertions_induct (motive := fun r => r.Ordered r.order) hq h
    fun _ _ _ _ _ _ hr hstep => separateWindow_ordered hr hstep

/-! ### Moved columns -/

/-- The readers of a node that follow its columns read what they read. -/
theorem remap_ordered {mapping : ColumnMap} (h : p.Ordered p.order)
    (hq : p.order.foldlM (fun p n => p.replaceInput n id id (some mapping)) p = .ok q) :
    q.Ordered q.order ∧ q.order = p.order := by
  have hred := foldlM_replaceInput_rewired hq h.nodup h.inArena
  rw [hred.order_eq]
  exact ⟨hred.ordered h fun n _ hn hread => h.before n hn id hread, rfl⟩

theorem remapWithin_ordered {fuel oldWidth : Nat} {mapping : ColumnMap} (h : p.Ordered p.order)
    (hq : remapWithin fuel p id mapping oldWidth = .ok q) : q.Ordered q.order := by
  induction fuel generalizing p q id mapping oldWidth with
  | zero => cases hq
  | succ fuel ih =>
      obtain ⟨r, hr, hq⟩ := Result.bind_eq_ok.mp hq
      refine Result.foldlM_keeps (motive := fun s => s.Ordered s.order) hq (remap_ordered h hr).1
        fun n _ s t hs hstep => ?_
      split at hstep
      · exact ih hs hstep
      · exact ih hs hstep
      · obtain ⟨m, -, hstep⟩ := Result.bind_eq_ok.mp hstep
        exact ih hs hstep
      · exact Result.pure_eq_ok.mp hstep ▸ hs

theorem dropDeadColumns_ordered {root : Option NodeId} (h : p.Ordered p.order)
    (hq : dropDeadColumns root p id = .ok q) : q.Ordered q.order := by
  unfold dropDeadColumns at hq
  split at hq
  · next j _ =>
    dsimp only at hq
    split at hq
    · exact Except.ok.inj hq ▸ h
    · obtain ⟨used, -, hq⟩ := Result.bind_eq_ok.mp hq
      split at hq
      · exact Result.pure_eq_ok.mp hq ▸ h
      · split at hq
        · exact Result.pure_eq_ok.mp hq ▸ h
        · exact remapWithin_ordered (h.setOp id _) hq
  · exact Except.ok.inj hq ▸ h

theorem eliminateDeadColumns_ordered (h : p.Ordered p.order)
    (hq : p.eliminateDeadColumns = .ok q) : q.Ordered q.order :=
  Result.foldlM_keeps (motive := fun r => r.Ordered r.order) hq h
    fun _ _ _ _ hr hstep => dropDeadColumns_ordered hr hstep

end Plan

end QueryPlan
