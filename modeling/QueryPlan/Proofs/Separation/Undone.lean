import QueryPlan.Proofs.Separation.Halves
import QueryPlan.Proofs.Separation.Inlining
/-!
# QueryPlan.Proofs.Separation.Undone

**What the separation of window functions does to a plan.** Each projection with a window function
inside of an expression becomes two, and the new one right above it is what everything else reads at
the same positions. Nothing else happens (`Plan.Separated`): all other nodes are renamed, and so is
what the projections computed before they were taken apart.

A step takes one projection apart (`Halved`). Nodes refer to nodes in front of them, so when a
projection has its turn, everything that it reads has had its turn already and later steps do not
change it again.
-/

namespace QueryPlan

open List

namespace Plan

variable {p q r : Plan} {id n : NodeId} {j : Project} {next next' : Nat}

/-! ### The plan before and after -/

/-- A projection stands in two parts. What the upper part computes from the lower one is what the
projection computes, and the columns of the projection come first in both. -/
structure SplitAt (p q : Plan) (σ : NodeId → NodeId) (id n : NodeId) (j lower upper : Project) :
    Prop where
  op_before : p.op id = .project j
  node_lower : q.node id = { (p.node id).renamed σ with op := .project lower }
  inputs_upper : q.inputs n = [id]
  op_upper : q.op n = .project upper
  inlined : upper.exprs.map (Expr.inline id lower.exprs) =
    j.exprs.map (Expr.mapColumns (ColumnRef.renamed σ))
  length_upper : upper.exprs.length = j.exprs.length
  fields_upper : upper.fields = j.fields
  target_upper : upper.target = none
  target_lower : lower.target = j.target
  fields_lower : j.fields <+: lower.fields
  length_lower : lower.fields.length = lower.exprs.length
  columns_lower : ∀ c ∈ (Operator.project lower).columns,
    ∃ d ∈ (Operator.project j).columns, c = d.renamed σ
  columns_upper : ∀ c ∈ (Operator.project upper).columns,
    c.source = id ∧ c.index < lower.exprs.length

/-- The outcome of the separation of window functions, given the node above each projection that was
taken apart. -/
structure Separated (p q : Plan) (upper : NodeId → Option NodeId) : Prop where
  order_eq : q.order = p.order.flatMap fun id => id :: (upper id).toList
  size_le : p.arena.size ≤ q.arena.size
  upper_new : ∀ id n, upper id = some n →
    id ∈ p.order ∧ p.arena.size ≤ n.index ∧ n.index < q.arena.size
  upper_inj : ∀ a b n, upper a = some n → upper b = some n → a = b
  /-- What is not taken apart reads the upper parts at the same positions. -/
  node_eq : ∀ id ∈ p.order, upper id = none → q.node id = (p.node id).renamed (topOf upper)
  split : ∀ id n, upper id = some n → ∃ j l u, p.SplitAt q (topOf upper) id n j l u

namespace Separated

variable {upper : NodeId → Option NodeId} {done rest : List NodeId}

theorem refl (p : Plan) : Separated p p fun _ => none where
  order_eq := by
    change p.order = p.order.flatMap fun id => [id]
    rw [flatMap_singleton']
  size_le := Nat.le_refl _
  upper_new := nofun
  upper_inj := nofun
  node_eq _ _ _ := (Node.renamed_id _).symm
  split := nofun

theorem mem_order (hs : Separated p q upper) (hid : id ∈ p.order) : id ∈ q.order := by
  rw [hs.order_eq]
  exact mem_flatMap.mpr ⟨id, hid, mem_cons_self⟩

section

variable (hs : Separated p q upper) (h : p.Ordered p.order)
include hs h

/-- The new nodes are not taken apart. -/
theorem upper_of_upper {a : NodeId} (ha : upper a = some n) : upper n = none := by
  refine Option.eq_none_iff_forall_ne_some.mpr fun m hm => ?_
  have hlive := h.inArena n (hs.upper_new n m hm).1
  exact absurd hlive (Nat.not_lt_of_le (hs.upper_new a n ha).2.1)

theorem upper_topOf (x : NodeId) : upper (topOf upper x) = none := by
  unfold topOf
  cases hx : upper x with
  | none => exact hx
  | some n => exact hs.upper_of_upper h hx

/-- A node of the plan is the top of no other node. -/
theorem topOf_ne {x : NodeId} (hid : id ∈ p.order) (hx : x ≠ id) : topOf upper x ≠ id := by
  unfold topOf
  cases hupper : upper x with
  | none => exact hx
  | some n =>
      rintro rfl
      exact absurd (h.inArena _ hid) (Nat.not_lt_of_le (hs.upper_new x _ hupper).2.1)

/-- A projection that was taken apart is read by its own upper part only. -/
theorem reads_apart :
    ∀ m ∈ q.order, (∀ i ∈ q.inputs m, upper i = none ∨ upper i = some m) ∧
      ∀ c ∈ (q.op m).columns, upper c.source = none ∨ upper c.source = some m := by
  have hinputs : ∀ {x i : NodeId}, i ∈ (p.inputs x).map (topOf upper) → upper i = none :=
    fun hi => by
      obtain ⟨y, -, rfl⟩ := mem_map.mp hi
      exact hs.upper_topOf h y
  intro m hm
  rw [hs.order_eq] at hm
  obtain ⟨a, ha, hm⟩ := mem_flatMap.mp hm
  cases hupper : upper a with
  | none =>
      rw [hupper] at hm
      obtain rfl := mem_singleton.mp hm
      have hnode := hs.node_eq m ha hupper
      refine ⟨fun i hi => .inl ?_, fun c hc => .inl ?_⟩
      · rw [inputs, hnode] at hi
        exact hinputs hi
      · rw [Plan.op, hnode, Node.op_renamed, Operator.columns_mapExprs] at hc
        obtain ⟨d, -, rfl⟩ := mem_map.mp hc
        exact hs.upper_topOf h d.source
  | some n =>
      obtain ⟨j, l, u, hsplit⟩ := hs.split a n hupper
      rw [hupper, Option.toList_some, mem_cons, mem_singleton] at hm
      rcases hm with rfl | rfl
      · refine ⟨fun i hi => .inl ?_, fun c hc => .inl ?_⟩
        · rw [inputs, hsplit.node_lower] at hi
          exact hinputs hi
        · rw [Plan.op, hsplit.node_lower] at hc
          obtain ⟨d, -, rfl⟩ := hsplit.columns_lower c hc
          exact hs.upper_topOf h d.source
      · refine ⟨fun i hi => .inr ?_, fun c hc => .inr ?_⟩
        · rw [hsplit.inputs_upper, mem_singleton] at hi
          rw [hi, hupper]
        · rw [hsplit.op_upper] at hc
          rw [(hsplit.columns_upper c hc).1, hupper]

end

end Separated

/-- The parts stay what they are if their nodes do, and if what the projection reads is renamed as
before. -/
theorem SplitAt.congr {σ τ : NodeId → NodeId} {l u : Project} (hs : p.SplitAt r σ id n j l u)
    (hlower : q.node id = r.node id) (hupper : q.node n = r.node n)
    (hinputs : ∀ i ∈ p.inputs id, σ i = τ i)
    (hcolumns : ∀ c ∈ (p.op id).columns, σ c.source = τ c.source) :
    p.SplitAt q τ id n j l u := by
  have hrenamed : ∀ c ∈ (Operator.project j).columns, c.renamed σ = c.renamed τ := fun c hc => by
    rw [ColumnRef.renamed, ColumnRef.renamed, hcolumns c (hs.op_before ▸ hc)]
  refine { hs with
    node_lower := ?_, inputs_upper := ?_, op_upper := ?_, inlined := ?_, columns_lower := ?_ }
  · rw [hlower, hs.node_lower, Node.renamed_congr hinputs hcolumns]
  · rw [inputs_congr hupper, hs.inputs_upper]
  · rw [op_congr hupper, hs.op_upper]
  · rw [hs.inlined]
    exact map_congr_left fun e he => Expr.mapColumns_congr fun c hc =>
      hrenamed c (Operator.mem_columns.mpr ⟨e, he, hc⟩)
  · intro c hc
    obtain ⟨d, hd, rfl⟩ := hs.columns_lower c hc
    exact ⟨d, hd, hrenamed d hd⟩

/-- A projection stands in two parts once it is taken apart. -/
theorem Halved.splitAt {σ : NodeId → NodeId} (hstep : Halved r q id j) (hself : id ∉ r.inputs id)
    (hnode : r.node id = (p.node id).renamed σ)
    (hbound : ∀ e ∈ (p.op id).exprs, e.hasPositional = false)
    (hsource : ∀ c ∈ (p.op id).columns, σ c.source ≠ id)
    (hparallel : ∀ j, p.op id = .project j → j.fields.length = j.exprs.length) :
    ∃ j₀ l u, p.SplitAt q σ id r.nextId j₀ l u := by
  obtain ⟨j₀, hop, hexprs, hfields, htarget⟩ : ∃ j₀, p.op id = .project j₀ ∧
      j.exprs = j₀.exprs.map (Expr.mapColumns (ColumnRef.renamed σ)) ∧ j.fields = j₀.fields ∧
      j.target = j₀.target := by
    have hop := hstep.op_before
    rw [Plan.op, hnode, Node.op_renamed] at hop
    change (p.op id).mapExprs _ = _ at hop
    cases hproject : p.op id with
    | project j₀ =>
        rw [hproject] at hop
        cases hop
        exact ⟨j₀, rfl, rfl, rfl, rfl⟩
    | _ =>
        rw [hproject] at hop
        cases hop
  rw [hop] at hbound hsource
  have hbound' : ∀ e ∈ j.exprs, e.hasPositional = false := by
    intro e he
    rw [hexprs] at he
    obtain ⟨d, hd, rfl⟩ := mem_map.mp he
    rw [Expr.hasPositional_mapColumns]
    exact hbound d hd
  have hcolumns : (Operator.project j).columns =
      (Operator.project j₀).columns.map (ColumnRef.renamed σ) := by
    rw [← Operator.columns_mapExprs]
    exact congrArg (fun es => es.flatMap Expr.columns) hexprs
  have hsource' : ∀ e ∈ j.exprs, ∀ c ∈ e.columns, c.source ≠ id := by
    intro e he c hc
    have hmem : c ∈ (Operator.project j).columns := Operator.mem_columns.mpr ⟨e, he, hc⟩
    rw [hcolumns] at hmem
    obtain ⟨d, hd, rfl⟩ := mem_map.mp hmem
    exact hsource d hd
  obtain ⟨hlength, -, hupper⟩ := splitUpper_spec hbound' hsource'
  obtain ⟨-, hlower⟩ := columns_lowerHalf (p := r) hbound' hsource'
  have hlowerLength : (r.lowerHalf id j).exprs.length =
      j.exprs.length + (splitUpper id j.exprs).2.length := by
    simp [lowerHalf, length_splitWindows]
  obtain ⟨buildId, hnew⟩ := hstep.node_upper
  refine ⟨j₀, r.lowerHalf id j, .plain (splitUpper id j.exprs).1 j.fields, hop, ?_, ?_, ?_, ?_, ?_,
    hfields, rfl, htarget, ?_, ?_, fun c hc => ?_, fun c hc => ?_⟩
  · rw [hstep.node_lower_eq hself hbound' hsource', hnode]
  · rw [inputs, hnew]
    rfl
  · rw [Plan.op, hnew]
    rfl
  · rw [← hexprs]
    exact inline_splitUpper hsource'
  · change (splitUpper id j.exprs).1.length = _
    rw [hlength, hexprs, length_map]
  · rw [← hfields]
    exact prefix_append ..
  · have hwidth : j.fields.length = j.exprs.length := by
      rw [hfields, hexprs, length_map, hparallel j₀ hop]
    simp [lowerHalf, length_splitWindows, hwidth]
  · have hmem := hlower hc
    rw [hcolumns] at hmem
    obtain ⟨d, hd, rfl⟩ := mem_map.mp hmem
    exact ⟨d, hd, rfl⟩
  · obtain ⟨e, he, hc⟩ := Operator.mem_columns.mp hc
    rw [hlowerLength]
    exact (hupper e he).2 c hc

namespace Separated

variable {upper : NodeId → Option NodeId} {done rest : List NodeId}

section Step

variable (hs : Separated p r upper) (h : p.Ordered p.order)
  (hsplit : p.order = done ++ id :: rest) (hstep : Halved r q id j)
include hs h hsplit hstep

/-- The new upper part stands right behind the lower one. -/
theorem step_order_eq (hr : r.Ordered r.order) (hnone : upper id = none) :
    q.order = p.order.flatMap fun x => x :: (Function.update upper id (some r.nextId) x).toList := by
  obtain ⟨pre, post, hbefore, hafter⟩ := hstep.order_eq
  rw [hafter]
  refine (congrArg (pre ++ ·) ?_).trans (flatMap_replaced hsplit h.nodup
    (hbefore.symm.trans hs.order_eq) (hbefore ▸ hr.nodup) (by rw [hnone]; rfl) fun b hb => ?_)
  · rw [Function.update_self]
    rfl
  · rw [Function.update_of_ne hb]

/-- What was taken apart before stays as it is, for it stands in front of the projection whose turn
it is. -/
theorem step_splitAt (hback : ∀ id ∈ p.order, ∀ c ∈ (p.op id).columns, [c.source, id] <+ p.order)
    {a n : NodeId} (haDone : a ∈ done) (ha : upper a = some n) :
    ∃ j l u, p.SplitAt q (topOf (Function.update upper id (some r.nextId))) a n j l u := by
  have hid : id ∈ p.order := hsplit ▸ by simp
  have halive : a ∈ p.order := hsplit ▸ mem_append_left _ haDone
  have hfront : ∀ x, [x, a] <+ p.order → x ≠ id := by
    rintro x hpair rfl
    refine not_pair_swap h.nodup hpair ?_
    rw [hsplit]
    exact pair_sublist_of_mem haDone mem_cons_self
  have haid : a ≠ id := by
    rintro rfl
    exact (nodup_append.mp (hsplit ▸ h.nodup)).2.2 a haDone a mem_cons_self rfl
  obtain ⟨j₀, l, u, hparts⟩ := hs.split a n ha
  have hmem : n ∈ r.order := by
    rw [hs.order_eq]
    exact mem_flatMap.mpr ⟨a, halive, by simp [ha]⟩
  have hnid : n ≠ id := by
    rintro rfl
    exact absurd (h.inArena _ hid) (Nat.not_lt_of_le (hs.upper_new a _ ha).2.1)
  refine ⟨j₀, l, u, hparts.congr ?_ ?_ (fun i hi => ?_) fun c hc => ?_⟩
  · rw [hstep.node_other a (hs.mem_order halive) haid, hparts.node_lower]
    refine Node.renamed_eq_self (fun i hi => NodeId.replaced_of_ne _ ?_)
      fun c hc => NodeId.replaced_of_ne _ ?_
    · obtain ⟨x, hx, rfl⟩ := mem_map.mp hi
      exact hs.topOf_ne h hid (hfront x (h.before a halive x hx))
    · obtain ⟨d, hd, rfl⟩ := hparts.columns_lower c hc
      exact hs.topOf_ne h hid (hfront d.source (hback a halive d (hparts.op_before ▸ hd)))
  · rw [hstep.node_other n hmem hnid]
    refine Node.renamed_eq_self (fun i hi => NodeId.replaced_of_ne _ ?_)
      fun c hc => NodeId.replaced_of_ne _ ?_
    · have hread : (r.node n).inputs = [a] := hparts.inputs_upper
      rw [hread, mem_singleton] at hi
      exact hi ▸ haid
    · have hop : (r.node n).op = .project u := hparts.op_upper
      rw [hop] at hc
      rwa [(hparts.columns_upper c hc).1]
  · exact (topOf_update_of_ne upper (hfront i (h.before a halive i hi))).symm
  · exact (topOf_update_of_ne upper (hfront c.source (hback a halive c hc))).symm

end Step

/-- One more projection is taken apart. -/
theorem step (hs : Separated p r upper) (h : p.Ordered p.order) (hr : r.Ordered r.order)
    (hback : ∀ id ∈ p.order, ∀ c ∈ (p.op id).columns, [c.source, id] <+ p.order)
    (hbound : ∀ id ∈ p.order, ∀ e ∈ (p.op id).exprs, e.hasPositional = false)
    (hparallel : ∀ id ∈ p.order, ∀ j, p.op id = .project j → j.fields.length = j.exprs.length)
    (hsplit : p.order = done ++ id :: rest) (hdone : ∀ a n, upper a = some n → a ∈ done)
    (hstep : Halved r q id j) : Separated p q (Function.update upper id (some r.nextId)) := by
  have hid : id ∈ p.order := hsplit ▸ by simp
  have hnone : upper id = none := Option.eq_none_iff_forall_ne_some.mpr fun n hn =>
    (nodup_append.mp (hsplit ▸ h.nodup)).2.2 id (hdone id n hn) id mem_cons_self rfl
  have htop : ∀ x, id.replaced r.nextId (topOf upper x) =
      topOf (Function.update upper id (some r.nextId)) x := fun x =>
    replaced_topOf hnone (hs.topOf_ne h hid)
  refine ⟨hs.step_order_eq h hsplit hstep hr hnone, ?_, fun a n ha => ?_, ?_,
    fun x hx hxnone => ?_, fun a n ha => ?_⟩
  · exact Nat.le_trans hs.size_le (by rw [hstep.size_eq]; exact Nat.le_succ _)
  · by_cases haid : a = id
    · rw [haid, Function.update_self] at ha
      cases ha
      exact ⟨haid ▸ hid, hs.size_le, by rw [hstep.size_eq]; exact Nat.lt_succ_self _⟩
    · rw [Function.update_of_ne haid] at ha
      obtain ⟨halive, hnew, hlt⟩ := hs.upper_new a n ha
      exact ⟨halive, hnew, by rw [hstep.size_eq]; exact Nat.lt_succ_of_lt hlt⟩
  · exact update_inj hs.upper_inj fun a ha => ne_nextId (hs.upper_new a _ ha).2.2 rfl
  · have hxid : x ≠ id := by
      rintro rfl
      rw [Function.update_self] at hxnone
      cases hxnone
    rw [Function.update_of_ne hxid] at hxnone
    rw [hstep.node_other x (hs.mem_order hx) hxid, hs.node_eq x hx hxnone, Node.renamed_renamed]
    exact Node.renamed_congr (fun i _ => htop i) fun c _ => htop c.source
  · by_cases haid : a = id
    · subst haid
      rw [Function.update_self] at ha
      cases ha
      obtain ⟨j₀, l, u, hparts⟩ := hstep.splitAt (hr.not_mem_inputs_self (hs.mem_order hid))
        (hs.node_eq a hid hnone) (hbound a hid)
        (fun c hc => hs.topOf_ne h hid (ne_of_pair h.nodup (hback a hid c hc))) (hparallel a hid)
      refine ⟨j₀, l, u, hparts.congr rfl rfl (fun i hi => ?_) fun c hc => ?_⟩
      · exact (topOf_update_of_ne upper (ne_of_pair h.nodup (h.before a hid i hi))).symm
      · exact (topOf_update_of_ne upper (ne_of_pair h.nodup (hback a hid c hc))).symm
    · rw [Function.update_of_ne haid] at ha
      exact hs.step_splitAt h hsplit hstep hback (hdone a n ha) ha

end Separated

/-- A reference carries the handle of a node further up front. -/
theorem Arranged.source_before (h : p.Arranged p.order) (hid : id ∈ p.order) {c : ColumnRef}
    (hc : c ∈ (p.op id).columns) (hscope : ∃ columns, p.scope id = .ok columns ∧ c ∈ columns) :
    [c.source, id] <+ p.order := by
  rcases mem_inputs_of_reads ((h.mem_scope_iff hid hc).mp hscope).1 with hread | ⟨i, hi, -, hread⟩
  · exact h.before id hid c.source hread
  · have hpair := h.before id hid i hi
    exact pair_sublist_trans h.nodup (h.before i (mem_left hpair) c.source hread) hpair

/-- **Window separation is undone by inlining.** Every projection with a window function inside of
an expression, and no other node, stands in two parts, from which inlining makes what it computed.
All other nodes are what they were, but read the upper parts, which nothing but these refers to the
lower ones. -/
theorem separation_undone (h : p.Arranged p.order)
    (hparallel : ∀ id ∈ p.order, ∀ j, p.op id = .project j → j.fields.length = j.exprs.length)
    (hbound : ∀ id ∈ p.order, ∀ e ∈ (p.op id).exprs, e.hasPositional = false)
    (hscope : ∀ id ∈ p.order, ∀ c ∈ (p.op id).columns,
      ∃ columns, p.scope id = .ok columns ∧ c ∈ columns)
    (hq : p.separateWindows next = .ok (q, next')) :
    ∃ upper, p.Separated q upper ∧ (∀ id ∈ p.order, (upper id).isSome = p.embedsWindow id) ∧
      ∀ m ∈ q.order, (∀ i ∈ q.inputs m, upper i = none ∨ upper i = some m) ∧
        ∀ c ∈ (q.op m).columns, upper c.source = none ∨ upper c.source = some m := by
  have hback : ∀ id ∈ p.order, ∀ c ∈ (p.op id).columns, [c.source, id] <+ p.order :=
    fun id hid c hc => h.source_before hid hc (hscope id hid c hc)
  have hordered := h.toOrdered
  unfold separateWindows at hq
  rw [Fresh.foldlM_eq] at hq
  have hrun := Result.foldlM_induct
    (motive := fun done (s : Plan × Nat) => ∃ upper, s.1.Ordered s.1.order ∧
      p.Separated s.1 upper ∧ (∀ a n, upper a = some n → a ∈ done) ∧
      ∀ a ∈ done, (upper a).isSome = p.embedsWindow a) hq
    ⟨fun _ => none, hordered, .refl p, nofun, nofun⟩ ?_
  · obtain ⟨upper, -, hs, -, hembeds⟩ := hrun
    exact ⟨upper, hs, hembeds, hs.reads_apart hordered⟩
  rintro done id rest ⟨r, n⟩ ⟨r', n'⟩ hsplit ⟨upper, hr, hs, hdone, hembeds⟩ hstep
  have hid : id ∈ p.order := hsplit ▸ by simp
  have hidDone : id ∉ done := fun hmem =>
    (nodup_append.mp (hsplit ▸ h.nodup)).2.2 id hmem id mem_cons_self rfl
  have hnone : upper id = none := Option.eq_none_iff_forall_ne_some.mpr fun n hn =>
    hidDone (hdone id n hn)
  have hnode := hs.node_eq id hid hnone
  have hordered' := (separateWindow_ordered hr hstep).1
  rcases hr.separateWindow (hs.mem_order hid) hstep with
    ⟨hembed, rfl⟩ | ⟨hembed, j, hhalved⟩
  · refine ⟨upper, hordered', hs, fun a n ha => mem_append_left _ (hdone a n ha), ?_⟩
    intro a ha
    rcases mem_append.mp ha with ha | ha
    · exact hembeds a ha
    · obtain rfl := mem_singleton.mp ha
      rw [hnone, ← embedsWindow_of_renamed hnode, hembed]
      rfl
  · refine ⟨_, hordered', hs.step hordered hr hback hbound hparallel hsplit hdone hhalved, ?_, ?_⟩
    · intro a n ha
      by_cases haid : a = id
      · exact mem_append_right _ (mem_singleton.mpr haid)
      · rw [Function.update_of_ne haid] at ha
        exact mem_append_left _ (hdone a n ha)
    · intro a ha
      by_cases haid : a = id
      · subst haid
        rw [Function.update_self, ← embedsWindow_of_renamed hnode, hembed]
        rfl
      · rw [Function.update_of_ne haid]
        exact hembeds a ((mem_append.mp ha).resolve_right (by simpa using haid))

/-- A projection to a rank plus a column. A join reads it twice, and above the join stands another
projection of this kind. -/
def ranksOfRanks : Plan :=
  let rank : Expr := .app (.window { (default : WindowCall) with kind := .rank }) []
  let plus (a b : Expr) : Expr := .app (.operator .plus .condition) [a, b]
  { arena := #[.make 0 [] (.values ⟨[⟨"a", .condition⟩], [[.bool true]]⟩),
      .make 1 [⟨0⟩] (.project (.plain [plus rank (.column ⟨⟨0⟩, 0⟩)] ["b"])),
      .make 2 [⟨1⟩, ⟨1⟩] (.join ⟨.bool true, .inner⟩),
      .make 3 [⟨2⟩] (.project (.plain [plus (.column ⟨⟨1⟩, 0⟩) rank, .column ⟨⟨1⟩, 0⟩]
        ["c", "d"]))]
    order := (range 4).map NodeId.mk }

/-- Both projections stand in two parts, and the join reads the upper part of the first one. -/
theorem separation_undone_ranksOfRanks : ∃ q upper, ranksOfRanks.Arranged ranksOfRanks.order ∧
    ranksOfRanks.separateWindows 4 = .ok (q, 6) ∧ ranksOfRanks.Separated q upper ∧
      ((upper ⟨0⟩).isSome, (upper ⟨1⟩).isSome, (upper ⟨2⟩).isSome, (upper ⟨3⟩).isSome) =
        (false, true, false, true) ∧
      q.order.map NodeId.index = [0, 1, 4, 2, 3, 5] ∧ q.inputs ⟨2⟩ = [⟨4⟩, ⟨4⟩] := by
  have hwf : ranksOfRanks.WellFormed :=
    wellFormed_of_reads ⟨⟨by decide, by decide, by decide⟩, by decide⟩ (by decide) (by decide)
      (by decide +kernel)
  have hrun : (ranksOfRanks.separateWindows 4).holds (fun s => s.2 == 6 &&
      s.1.order.map NodeId.index == [0, 1, 4, 2, 3, 5] && s.1.inputs ⟨2⟩ == [⟨4⟩, ⟨4⟩]) = true := by
    decide +kernel
  obtain ⟨⟨q, n⟩, hq, hresult⟩ := Result.holds_eq_true.mp hrun
  simp only [Bool.and_eq_true, beq_iff_eq] at hresult
  obtain ⟨⟨rfl, horder⟩, hinputs⟩ := hresult
  obtain ⟨upper, hs, hembeds, -⟩ := separation_undone hwf.arranged
    (fun id hid j hop => by simpa [hop, Operator.FieldsMatch] using hwf.fieldsMatch id hid)
    hwf.bound hwf.inScope hq
  refine ⟨q, upper, hwf.arranged, hq, hs, ?_, horder, hinputs⟩
  rw [hembeds ⟨0⟩ (by decide), hembeds ⟨1⟩ (by decide), hembeds ⟨2⟩ (by decide),
    hembeds ⟨3⟩ (by decide)]
  decide +kernel

end Plan

end QueryPlan
