import QueryPlan.Proofs.Success.Lookups
import QueryPlan.Proofs.WindowNarrowing.Step
/-!
# QueryPlan.Proofs.Success.Windows

**Passes that put a projection above or below another one refuse no readable plan.** A projection
below another one has every column that is read there, and one above it has as many columns as what
it takes over from.
-/

namespace QueryPlan

open List

namespace Plan

variable {p q : Plan} {id : NodeId}

/-- A loop over the live nodes of a readable plan succeeds if each step does, keeps the plan
readable and takes nothing out. -/
theorem Readable.insertions_ok {f : Plan → NodeId → Fresh Plan} (h : p.Readable)
    (step : ∀ r id n, r.Readable → id ∈ r.order →
      ∃ r' n', f r id n = .ok (r', n') ∧ r'.Readable ∧ r.order ⊆ r'.order) (next : Nat) :
    ∃ q next', p.order.foldlM f p next = .ok (q, next') ∧ q.Readable :=
  Plan.insertions_ok h (fun r id n hid hr => step r id n hr hid) next

/-! ### Narrow inputs -/

/-- Neither projection looks anything up, and all other nodes are as they were. -/
theorem NarrowedAt.lookupsInRange {input : NodeId} {used : List Nat}
    (f : NarrowedAt p q id input used) (h : p.LookupsInRange) : q.LookupsInRange := by
  refine h.of_lookups fun x hx i hi k hk => ?_
  rcases f.mem_order.mp hx with rfl | hx
  · rw [f.op_new] at hk
    exact absurd hk not_mem_nil
  · by_cases hxid : x = id
    · obtain ⟨j, hop, -⟩ := f.narrowable.windowed
      have hnone : (q.op id).lookups = [] := by
        rw [Operator.lookups, Plan.op, f.node_self, Node.groupKeys_moved, Node.positions_moved,
          show (p.node id).op = .project j from hop]
        exact ite_self _
      rw [hxid, hnone] at hk
      exact absurd hk not_mem_nil
    · rw [f.inputs_other hx hxid] at hi
      rw [f.op_other hx hxid] at hk
      have hlive := f.inSight.arranged.mem_of_input hx hi
      exact ⟨x, hx, i, hi, hk, Nat.le_of_eq (f.columnCount_eq i hlive).symm⟩

theorem narrowWindow_ok (h : p.Readable) (hid : id ∈ p.order) (next : Nat) :
    ∃ q next', p.narrowWindow id next = .ok (q, next') ∧ q.Readable ∧ p.order ⊆ q.order := by
  rcases h.toScoped.narrowWindow_cases hid next with ⟨hok, -⟩ | ⟨input, used, q, hok, f⟩
  · exact ⟨p, next, hok, h, Subset.refl _⟩
  · obtain ⟨hwf, hsub⟩ := narrowWindow_wellFormed h.toWellFormed hid hok
    exact ⟨q, next + 1, hok, ⟨hwf, f.lookupsInRange h.lookups⟩, hsub⟩

theorem narrowWindows_ok (h : p.Readable) (next : Nat) :
    ∃ q next', p.narrowWindows next = .ok (q, next') ∧ q.Readable :=
  h.insertions_ok (fun _ _ n hr hid => narrowWindow_ok hr hid n) next

/-! ### Windows on their own -/

/-- What read a projection taken apart finds all columns in its upper half. -/
theorem Readable.takeApart_ok (h : p.Readable) (hid : id ∈ p.order) {j : Project}
    (hop : p.op id = .project j) (buildId : Nat) :
    ∃ r q, (p.setOp id (.project (p.lowerHalf id j))).insertAfter id
        (.make buildId [id] (.project (.plain (splitUpper id j.exprs).1 j.fields))) = .ok r ∧
      r.replaceInputEverywhere id p.nextId none = .ok q ∧ q.Readable ∧ p.order ⊆ q.order := by
  obtain ⟨r, hr⟩ := insertAfter_ok (p := p.setOp id (.project (p.lowerHalf id j))) hid
    (.make buildId [id] (.project (.plain (splitUpper id j.exprs).1 j.fields)))
  obtain ⟨pre, post, f⟩ := h.takenApart hid hop hr
  have hcount : p.columnCount id = j.exprs.length :=
    h.arranged.columnCount_of_own hid (by rw [hop]; rfl)
  have hcolumns : ∀ n ∈ p.order, (r.op n).columns ⊆ (p.op n).columns := fun n hn => by
    by_cases hnid : n = id
    · exact hnid ▸ f.columns_lower
    · rw [f.op_other hn hnid]
      exact Subset.refl _
  obtain ⟨q, hq, hred⟩ : ∃ q, r.replaceInputEverywhere id p.nextId none = .ok q ∧
      Redirection r q id p.nextId none (r.order.filter fun n => n != p.nextId) := by
    refine replaceInputEverywhere_ok f.wellFormed.nodup (fun _ => f.wellFormed.inArena)
      (f.order_eq ▸ f.wellFormed.arranged).steady_to_next fun n hn hnew c hc hsource => ?_
    have hlive := (f.mem_order.mp hn).resolve_left hnew
    rw [f.columnCount_upper, ← hcount, ← hsource]
    exact (h.reads_of_mem hlive (hcolumns n hlive hc)).2
  obtain ⟨hwf, hsub⟩ := f.wellFormed_redirected h.toWellFormed hid hop hq
  obtain ⟨-, hupper, -, hother⟩ := f.columnCount_eq h.toWellFormed hid hop hq
  refine ⟨r, q, hr, hq, ⟨hwf, ?_⟩, hsub⟩
  -- Neither half looks anything up, and what read the projection finds as many columns above it.
  refine h.lookups.of_lookups fun x hx i hi k hk => ?_
  rw [hred.lookups_eq] at hk
  rcases f.mem_order.mp (hred.order_eq ▸ hx) with rfl | hx
  · rw [f.op_upper] at hk
    exact absurd hk not_mem_nil
  · by_cases hxid : x = id
    · rw [hxid, f.op_lower] at hk
      exact absurd hk not_mem_nil
    · rw [f.op_other hx hxid] at hk
      have hchanged : x ∈ r.order.filter fun n => n != p.nextId := by
        rw [mem_filter, f.mem_order]
        exact ⟨.inr hx, bne_iff_ne.mpr (ne_nextId (h.inArena hx))⟩
      rw [hred.inputs_eq hchanged, f.inputs_other hx] at hi
      obtain ⟨y, hy, rfl⟩ := mem_map.mp hi
      refine ⟨x, hx, y, hy, hk, ?_⟩
      by_cases hyid : y = id
      · rw [hyid, NodeId.replaced_self, hupper, hcount]
      · rw [NodeId.replaced_of_ne _ hyid, hother y (h.arranged.mem_of_input hx hy) hyid]

theorem separateWindow_ok (h : p.Readable) (hid : id ∈ p.order) (next : Nat) :
    ∃ q next', p.separateWindow id next = .ok (q, next') ∧ q.Readable ∧ p.order ⊆ q.order := by
  have hkeep : ∃ q next', (pure p : Fresh Plan) next = .ok (q, next') ∧ q.Readable ∧
      p.order ⊆ q.order := ⟨p, next, rfl, h, Subset.refl _⟩
  unfold separateWindow
  cases hop : p.op id with
  | project j =>
      dsimp only
      split
      · exact hkeep
      · obtain ⟨r, q, hr, hq, hreadable, hsub⟩ := h.takeApart_ok hid hop next
        have hnext : (p.setOp id (.project (p.lowerHalf id j))).nextId = p.nextId := by
          rw [nextId, size_setOp]
          rfl
        refine ⟨q, next + 1, ?_, hreadable, hsub⟩
        rw [← hnext] at hq
        refine (Fresh.bind_ok (Fresh.freshId_eq_ok.mpr ⟨rfl, rfl⟩)).trans ?_
        exact (Fresh.bind_ok (Fresh.lift_ok hr)).trans (Fresh.lift_ok hq)
  | _ => exact hkeep

theorem separateWindows_ok (h : p.Readable) (next : Nat) :
    ∃ q next', p.separateWindows next = .ok (q, next') ∧ q.Readable :=
  h.insertions_ok (fun _ _ n hr hid => separateWindow_ok hr hid n) next

end Plan

end QueryPlan
