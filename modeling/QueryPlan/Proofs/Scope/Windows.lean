import QueryPlan.Pass.WindowNarrowing
import QueryPlan.Proofs.Expr.WindowSplit
import QueryPlan.Proofs.Plan.Loops
import QueryPlan.Proofs.Scope.Bypass
/-!
# QueryPlan.Proofs.Scope.Windows

**Passes that put a projection above or below another one.** The new node is a projection with a
handle that nothing carried before. Below a projection with a window function it forwards the
columns that are read there; above one it takes the place of the projection for everything that
read it.
-/

namespace QueryPlan

open List

namespace Plan

variable {p q : Plan} {id : NodeId} {next next' : Nat}

/-! ### Narrow inputs -/

/-- A projection to some columns of a node. -/
def narrowing (buildId : Nat) (input : NodeId) (kept : List Nat) : Node :=
  .make buildId [input]
    (.project (.plain (kept.map fun i => .column ⟨input, i⟩) (kept.map fun _ => "")))

/-- A pass over window functions leaves a plan alone, or puts a projection to the columns that a
projection reads between it and its input. -/
theorem narrowWindow_cases (hq : p.narrowWindow id next = .ok (q, next')) :
    q = p ∨ ∃ j input buildId r, p.op id = .project j ∧ p.inputs id = [input] ∧
      positionsRead input j.exprs ≠ [] ∧
      p.insertBefore id (narrowing buildId input (positionsRead input j.exprs)) = .ok r ∧
      r.replaceInput id input p.nextId (some (.ofKept (positionsRead input j.exprs))) = .ok q := by
  unfold narrowWindow at hq
  cases hop : p.op id with
  | project j =>
      rw [hop] at hq
      dsimp only at hq
      split at hq
      · exact .inl (Fresh.pure_eq_ok.mp hq).1.symm
      · obtain ⟨input, n, hinput, hq⟩ := Fresh.bind_eq_ok.mp hq
        obtain ⟨hsingle, rfl⟩ := Fresh.lift_eq_ok.mp hinput
        split at hq
        · exact .inl (Fresh.pure_eq_ok.mp hq).1.symm
        · next hread =>
          obtain ⟨w, n, hw, hq⟩ := Fresh.bind_eq_ok.mp hq
          obtain ⟨-, rfl⟩ := Fresh.lift_eq_ok.mp hw
          split at hq
          · exact .inl (Fresh.pure_eq_ok.mp hq).1.symm
          · obtain ⟨buildId, n, -, hq⟩ := Fresh.bind_eq_ok.mp hq
            obtain ⟨r, n', hr, hq⟩ := Fresh.bind_eq_ok.mp hq
            exact .inr ⟨j, input, buildId, r, rfl, Node.singleInput_eq_ok.mp hsingle,
              by simpa using hread, (Fresh.lift_eq_ok.mp hr).1, (Fresh.lift_eq_ok.mp hq).1⟩
  | _ =>
      rw [hop] at hq
      exact .inl (Fresh.pure_eq_ok.mp hq).1.symm

/-- A loop over the live nodes keeps a plan well-formed if each step does and takes nothing
out. What else the steps keep, the loop keeps. -/
theorem WellFormed.insertions_induct {f : Plan → NodeId → Fresh Plan} {motive : Plan → Prop}
    (h : p.WellFormed) (hq : p.order.foldlM f p next = .ok (q, next')) (start : motive p)
    (step : ∀ r r' id n n', r.WellFormed → id ∈ r.order → motive r → f r id n = .ok (r', n') →
      (r'.WellFormed ∧ r.order ⊆ r'.order) ∧ motive r') : q.WellFormed ∧ motive q := by
  refine Plan.insertions_induct (motive := fun r => r.WellFormed ∧ motive r) hq ⟨h, start⟩
    fun r r' id n n' hid hr hstep => ?_
  obtain ⟨⟨hwf, hsub⟩, hmotive⟩ := step r r' id n n' hr.1 hid hr.2 hstep
  exact ⟨⟨hwf, hmotive⟩, hsub⟩

theorem WellFormed.of_insertions {f : Plan → NodeId → Fresh Plan} (h : p.WellFormed)
    (hq : p.order.foldlM f p next = .ok (q, next'))
    (step : ∀ r r' id n n', r.WellFormed → id ∈ r.order → f r id n = .ok (r', n') →
      r'.WellFormed ∧ r.order ⊆ r'.order) : q.WellFormed :=
  (h.insertions_induct (motive := fun _ => True) hq trivial
    fun r r' id n n' hr hid _ hstep => ⟨step r r' id n n' hr hid hstep, trivial⟩).1

/-! ### Windows on their own -/

/-- The lower half of a projection taken apart. -/
def lowerHalf (p : Plan) (id : NodeId) (j : Project) : Project :=
  { j with
    exprs := (splitWindows id j.exprs 0).lower ++ (splitUpper id j.exprs).2.map Expr.column
    fields := j.fields ++ (splitUpper id j.exprs).2.map p.forwardedName }

/-- Whether a node is a projection with a window function inside of an expression. -/
def embedsWindow (p : Plan) (id : NodeId) : Bool :=
  match p.op id with
  | .project j => j.exprs.any Expr.embedsWindow
  | _ => false

/-- A pass over window functions takes a projection apart exactly if a window function lies inside of
one of its expressions. -/
theorem separateWindow_eq_ok (hq : p.separateWindow id next = .ok (q, next')) :
    (p.embedsWindow id = false ∧ q = p) ∨
      (p.embedsWindow id = true ∧ ∃ j buildId r, p.op id = .project j ∧
        (p.setOp id (.project (p.lowerHalf id j))).insertAfter id
          (.make buildId [id] (.project (.plain (splitUpper id j.exprs).1 j.fields))) = .ok r ∧
        r.replaceInputEverywhere id p.nextId none = .ok q) := by
  unfold separateWindow at hq
  unfold embedsWindow
  cases hop : p.op id with
  | project j =>
      rw [hop] at hq
      dsimp only at hq ⊢
      rw [← @found_splitWindows id j.exprs 0]
      split at hq
      · next hfound => exact .inl ⟨by simpa using hfound, (Fresh.pure_eq_ok.mp hq).1.symm⟩
      · next hfound =>
        obtain ⟨buildId, n, -, hq⟩ := Fresh.bind_eq_ok.mp hq
        obtain ⟨r, n', hr, hq⟩ := Fresh.bind_eq_ok.mp hq
        refine .inr ⟨by simpa using hfound, j, buildId, r, rfl, (Fresh.lift_eq_ok.mp hr).1, ?_⟩
        have hnext : (p.setOp id (.project (p.lowerHalf id j))).nextId = p.nextId := by
          rw [nextId, size_setOp]
          rfl
        rw [← hnext]
        exact (Fresh.lift_eq_ok.mp hq).1
  | _ =>
      rw [hop] at hq
      exact .inl ⟨rfl, (Fresh.pure_eq_ok.mp hq).1.symm⟩

/-- A pass over window functions leaves a plan alone or takes a projection apart. -/
theorem separateWindow_cases (hq : p.separateWindow id next = .ok (q, next')) :
    q = p ∨ ∃ j buildId r, p.op id = .project j ∧
      (p.setOp id (.project (p.lowerHalf id j))).insertAfter id
        (.make buildId [id] (.project (.plain (splitUpper id j.exprs).1 j.fields))) = .ok r ∧
      r.replaceInputEverywhere id p.nextId none = .ok q :=
  (separateWindow_eq_ok hq).imp And.right And.right

/-- The lower half refers to what the projection refers to. -/
theorem columns_lowerHalf {j : Project}
    (hbound : ∀ e ∈ j.exprs, e.hasPositional = false)
    (hsource : ∀ e ∈ j.exprs, ∀ c ∈ e.columns, c.source ≠ id) :
    (∀ e ∈ (p.lowerHalf id j).exprs, e.hasPositional = false) ∧
      (Operator.project (p.lowerHalf id j)).columns ⊆ (Operator.project j).columns := by
  obtain ⟨-, hforwarded, -⟩ := splitUpper_spec hbound hsource
  have hlower : (splitWindows id j.exprs 0).lower.flatMap Expr.leaves ⊆
      j.exprs.flatMap Expr.leaves := leaves_splitWindows_lower j.exprs 0
  constructor
  · intro e he
    rcases mem_append.mp he with he | he
    · rw [Expr.hasPositional_eq_false_iff]
      intro l hl
      obtain ⟨d, hd, hl⟩ := mem_flatMap.mp (hlower (mem_flatMap.mpr ⟨e, he, hl⟩))
      exact Expr.hasPositional_eq_false_iff.mp (hbound d hd) l hl
    · obtain ⟨c, -, rfl⟩ := mem_map.mp he
      rfl
  · intro c hc
    obtain ⟨e, he, hc⟩ := Operator.mem_columns.mp hc
    rcases mem_append.mp he with he | he
    · have hl := hlower (mem_flatMap.mpr ⟨e, he, Expr.mem_columns_iff.mp hc⟩)
      obtain ⟨d, hd, hl⟩ := mem_flatMap.mp hl
      exact Operator.mem_columns.mpr ⟨d, hd, Expr.mem_columns_iff.mpr hl⟩
    · obtain ⟨d, hd, rfl⟩ := mem_map.mp he
      obtain rfl := mem_singleton.mp hc
      exact hforwarded hd

/-- A projection was taken apart: the lower half stands in its place, and the upper half, which
nothing reads yet, right above it. -/
structure TakenApart (p r : Plan) (id : NodeId) (j : Project) (pre post : List NodeId) : Prop where
  wellFormed : r.WellFormed
  order_before : p.order = pre ++ id :: post
  order_eq : r.order = pre ++ id :: p.nextId :: post
  node_other : ∀ x ∈ p.order, x ≠ id → r.node x = p.node x
  inputs_lower : r.inputs id = p.inputs id
  op_lower : r.op id = .project (p.lowerHalf id j)
  inputs_upper : r.inputs p.nextId = [id]
  op_upper : r.op p.nextId = .project (.plain (splitUpper id j.exprs).1 j.fields)
  length_upper : (splitUpper id j.exprs).1.length = j.exprs.length
  columns_lower : (r.op id).columns ⊆ (p.op id).columns
  columns_upper : ∀ c ∈ (r.op p.nextId).columns, c.source = id

theorem WellFormed.takenApart (h : p.WellFormed) (hid : id ∈ p.order) {j : Project}
    (hop : p.op id = .project j) {buildId : Nat} {r : Plan}
    (hr : (p.setOp id (.project (p.lowerHalf id j))).insertAfter id
      (.make buildId [id] (.project (.plain (splitUpper id j.exprs).1 j.fields))) = .ok r) :
    ∃ pre post, p.TakenApart r id j pre post := by
  have hbound : ∀ e ∈ j.exprs, e.hasPositional = false := fun e he =>
    h.bound id hid e (by rw [hop]; exact he)
  have hcolumns : ∀ {c}, c ∈ (Operator.project j).columns →
      c.source ∈ p.reads id ∧ c.index < p.columnCount c.source := fun hc =>
    h.reads_of_mem hid (by rw [hop]; exact hc)
  have hsource : ∀ e ∈ j.exprs, ∀ c ∈ e.columns, c.source ≠ id := by
    rintro e he c hc rfl
    rcases mem_inputs_of_reads (hcolumns (Operator.mem_columns.mpr ⟨e, he, hc⟩)).1 with
      hx | ⟨i, hi, -, hx⟩
    · exact h.arranged.not_mem_inputs_self hid hx
    · have hpair := h.arranged.before _ hid i hi
      exact not_pair_swap h.nodup hpair (h.arranged.before i (mem_left hpair) _ hx)
  have hfields : j.fields.length = j.exprs.length := by
    have hfields := h.fieldsMatch id hid
    rwa [hop] at hfields
  obtain ⟨hlength, -, hupper⟩ := splitUpper_spec hbound hsource
  obtain ⟨hlowerBound, hlowerColumns⟩ := columns_lowerHalf (p := p) hbound hsource
  have hlowerLength : (p.lowerHalf id j).exprs.length =
      j.exprs.length + (splitUpper id j.exprs).2.length := by
    simp [lowerHalf, length_splitWindows]
  -- The lower half first, in place of the projection.
  have hp₀ : (p.setOp id (.project (p.lowerHalf id j))).WellFormed := by
    refine h.widen hid (by rw [hop]; rfl) rfl (by omega) (by rw [hop]; rfl) ?_ hlowerBound ?_
    · simp [Operator.FieldsMatch, lowerHalf, length_splitWindows, hfields]
    · exact fun c hc => hcolumns (hlowerColumns hc)
  have hp₀Self : (p.setOp id (.project (p.lowerHalf id j))).op id =
      .project (p.lowerHalf id j) := op_setOp_self _ (h.inArena hid)
  have hp₀Count : (p.setOp id (.project (p.lowerHalf id j))).columnCount id =
      (p.lowerHalf id j).exprs.length :=
    hp₀.arranged.columnCount_of_own hid (by rw [hp₀Self]; rfl)
  have hnext : (p.setOp id (.project (p.lowerHalf id j))).nextId = p.nextId := by
    rw [nextId, size_setOp]
    rfl
  obtain ⟨pre, post, f⟩ := hp₀.arranged.toOrdered.inserted_after hr
  have hwf : r.WellFormed := by
    refine hp₀.insert f rfl (by simp [Node.make])
      (by simp [Node.make, Operator.FieldsMatch, Project.plain, hfields, hlength])
      (fun e he => (hupper e he).1) fun c hc => ?_
    obtain ⟨e, he, hc⟩ := Operator.mem_columns.mp hc
    obtain ⟨hcid, hlt⟩ := (hupper e he).2 c hc
    rw [hcid, hp₀Count, hlowerLength]
    refine ⟨?_, hlt⟩
    simp [Node.make, Operator.isJoin, exposed, hp₀Self]
  have horder := f.order_before
  rw [append_assoc, singleton_append] at horder
  refine ⟨pre, post, hwf, horder, ?_, fun x hx hxid => ?_, ?_, (f.op_eq hid).trans hp₀Self, ?_, ?_,
    hlength, ?_, ?_⟩
  · rw [f.order_eq, hnext, append_assoc, singleton_append]
  · rw [f.node_eq x hx, node_setOp_of_ne _ hxid]
  · rw [f.inputs_eq hid, inputs_setOp]
  · rw [← hnext, f.inputs_new]
    rfl
  · rw [← hnext, f.op_new]
    rfl
  · rw [f.op_eq hid, hp₀Self, hop]
    exact hlowerColumns
  · rw [← hnext, f.op_new]
    intro c hc
    obtain ⟨e, he, hc⟩ := Operator.mem_columns.mp hc
    exact ((hupper e he).2 c hc).1

namespace TakenApart

variable {r : Plan} {j : Project} {pre post : List NodeId} {x : NodeId}
  (f : p.TakenApart r id j pre post)
include f

theorem mem_order : x ∈ r.order ↔ x = p.nextId ∨ x ∈ p.order := by
  rw [f.order_eq, f.order_before, append_cons, mem_middle_iff, append_assoc, singleton_append]

/-- The upper half is as wide as the projection was. -/
theorem columnCount_upper : r.columnCount p.nextId = j.exprs.length := by
  rw [f.wellFormed.arranged.columnCount_of_own (f.mem_order.mpr (.inl rfl))
    (by rw [f.op_upper]; rfl), ← f.length_upper]
  rfl

theorem op_other (hx : x ∈ p.order) (hxid : x ≠ id) : r.op x = p.op x :=
  op_congr (f.node_other x hx hxid)

/-- The nodes from before have the inputs from before. -/
theorem inputs_other (hx : x ∈ p.order) : r.inputs x = p.inputs x := by
  by_cases hxid : x = id
  · rw [hxid, f.inputs_lower]
  · exact inputs_congr (f.node_other x hx hxid)

/-- The loop over all nodes lets what read the projection read the upper half. -/
theorem redirection (hq : r.replaceInputEverywhere id p.nextId none = .ok q) :
    Redirection r q id p.nextId none (r.order.filter fun n => n != p.nextId) :=
  (f.order_eq ▸ f.wellFormed.arranged).redirection_to_next hq f.wellFormed.nodup
    fun _ => f.wellFormed.inArena

variable (h : p.WellFormed) (hid : id ∈ p.order) (hop : p.op id = .project j)
include h hid hop

/-- What read the projection finds as many columns as before. -/
theorem columnCount_eq (hq : r.replaceInputEverywhere id p.nextId none = .ok q) :
    q.Arranged r.order ∧ q.columnCount p.nextId = j.exprs.length ∧
      q.columnCount id = (p.lowerHalf id j).exprs.length ∧
      ∀ x ∈ p.order, x ≠ id → q.columnCount x = p.columnCount x := by
  have hwf := f.wellFormed
  have hred := f.redirection hq
  have hne : ∀ x ∈ p.order, x ≠ p.nextId := fun x hx => ne_nextId (h.inArena hx)
  have hqArranged : q.Arranged r.order := by
    refine hred.arranged hwf.arranged fun n hn hread => ?_
    obtain ⟨hn, hnew⟩ := mem_filter.mp hn
    exact (pair_next hwf.nodup f.order_eq (hwf.arranged.before n hn id hread)
      (by simpa using hnew)).2
  have hqCount : ∀ x ∈ r.order, q.columnCount x = if x = p.nextId then j.exprs.length else
      if x = id then (p.lowerHalf id j).exprs.length else p.columnCount x := by
    refine hred.columnCount_eq hqArranged (fun x hx hchanged => ?_) fun x hx hunchanged => ?_
    · have hxnew : x ≠ p.nextId := by simpa using (mem_filter.mp hchanged).2
      have hxlive : x ∈ p.order := (f.mem_order.mp hx).resolve_left hxnew
      rw [if_neg hxnew]
      by_cases hxid : x = id
      · rw [if_pos hxid, hxid, f.op_lower]
        rfl
      · rw [if_neg hxid, h.arranged.columnCount_eq hxlive, f.op_other hxlive hxid,
          f.inputs_other hxlive]
        congr 1
        refine map_congr_left fun i hi => ?_
        by_cases hiid : i = id
        · rw [hiid, NodeId.replaced_self, if_pos rfl, h.arranged.columnCount_eq hid, hop]
          rfl
        · rw [NodeId.replaced_of_ne _ hiid,
            if_neg (hne i (h.arranged.mem_of_input hxlive hi)), if_neg hiid]
    · have hxnew : x = p.nextId := by simpa [hx] using hunchanged
      rw [if_pos hxnew, hxnew, f.op_upper]
      exact f.length_upper.symm
  refine ⟨hqArranged, ?_, ?_, fun x hx hxid => ?_⟩
  · rw [hqCount _ (f.mem_order.mpr (.inl rfl)), if_pos rfl]
  · rw [hqCount _ (f.mem_order.mpr (.inr hid)), if_neg (hne id hid), if_pos rfl]
  · rw [hqCount _ (f.mem_order.mpr (.inr hx)), if_neg (hne x hx), if_neg hxid]

/-- What read the projection reads the upper half, which keeps the plan well-formed. -/
theorem wellFormed_redirected (hq : r.replaceInputEverywhere id p.nextId none = .ok q) :
    q.WellFormed ∧ p.order ⊆ q.order := by
  have hwf := f.wellFormed
  have hred := f.redirection hq
  obtain ⟨hqArranged, hupper, hlower, hother⟩ := f.columnCount_eq h hid hop hq
  have hne : ∀ x ∈ p.order, x ≠ p.nextId := fun x hx => ne_nextId (h.inArena hx)
  refine ⟨hred.wellFormed_next hwf f.order_eq (by rw [f.op_lower]; rfl) (by rw [f.op_upper]; rfl)
    (filter_subset_self _) (by simp) (fun n hn => ?_) (hupper.trans f.columnCount_upper.symm) ?_,
    fun x hx => ?_⟩
  · have hnew : n ≠ p.nextId := by
      rintro rfl
      have hnodup := hwf.nodup
      rw [f.order_eq, append_cons] at hnodup
      exact (nodup_cons.mp (nodup_append.mp hnodup).2.1).1 hn
    rw [mem_filter, f.order_eq]
    simp [hn, hnew]
  · intro n hn c hc hsource
    rcases f.mem_order.mp hn with rfl | hn'
    · have hcid := f.columns_upper c hc
      have hlt := (hwf.reads_of_mem hn hc).2
      have hcount : r.columnCount id = (p.lowerHalf id j).exprs.length :=
        hwf.arranged.columnCount_of_own (f.mem_order.mpr (.inr hid)) (by rw [f.op_lower]; rfl)
      rw [hcid] at hlt ⊢
      rwa [hlower, ← hcount]
    · have hcid : c.source ≠ id := hsource (by simp [hn, hne n hn'])
      have hc' : c ∈ (p.op n).columns := by
        by_cases hnid : n = id
        · rw [hnid] at hc ⊢
          exact f.columns_lower hc
        · rwa [← f.op_other hn' hnid]
      obtain ⟨hread, hlt⟩ := h.reads_of_mem hn' hc'
      rwa [hother _ (h.arranged.reads_subset hn' hread) hcid]
  · rw [hred.order_eq]
    exact f.mem_order.mpr (.inr hx)

end TakenApart

theorem separateWindow_wellFormed (h : p.WellFormed) (hid : id ∈ p.order)
    (hq : p.separateWindow id next = .ok (q, next')) : q.WellFormed ∧ p.order ⊆ q.order := by
  rcases separateWindow_cases hq with rfl | ⟨j, buildId, r, hop, hr, hq⟩
  · exact ⟨h, Subset.refl _⟩
  · obtain ⟨pre, post, f⟩ := h.takenApart hid hop hr
    exact f.wellFormed_redirected h hid hop hq

theorem separateWindows_wellFormed (h : p.WellFormed)
    (hq : p.separateWindows next = .ok (q, next')) : q.WellFormed :=
  h.of_insertions hq fun _ _ _ _ _ hr hid hstep => separateWindow_wellFormed hr hid hstep

end Plan

end QueryPlan
