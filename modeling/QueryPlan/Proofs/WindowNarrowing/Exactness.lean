import QueryPlan.Proofs.Separation.Inlining
import QueryPlan.Proofs.WindowNarrowing.Step
import Mathlib
/-!
# QueryPlan.Proofs.WindowNarrowing.Exactness

**What narrow inputs do to a plan.** Each projection whose input may be narrow gets a projection
right below it, to the columns that it refers to and in ascending order. It reads this one and
nothing else, refers to all of its columns, and computes what it did once these are inlined
(`Plan.NarrowInput`). All other nodes stay as they are (`Plan.Narrowed`).

Afterwards no input may be narrow any more: not those of the new projections, which have no window
functions, nor those of the projections above them, which leave no column of their inputs out. So
a second run changes nothing (`Plan.window_narrowing_exact`).
-/

namespace QueryPlan

open List

/-- A loop of which no step changes anything. -/
theorem Fresh.foldlM_steady {σ α : Type} {f : σ → α → Fresh σ} {as : List α} {s : σ} {next : Nat}
    (h : ∀ a ∈ as, f s a next = .ok (s, next)) : as.foldlM f s next = .ok (s, next) := by
  induction as with
  | nil => rfl
  | cons a as ih =>
      rw [foldlM_cons, Fresh.bind_ok (h a mem_cons_self)]
      exact ih fun b hb => h b (mem_cons_of_mem _ hb)

namespace Plan

variable {p q r : Plan} {id n input : NodeId} {used : List Nat} {next : Nat}

/-! ### One projection before and after -/

/-- A projection reads another one, which shows some columns of the input that it read, and all of
them are used. -/
structure NarrowInput (p q : Plan) (id n input : NodeId) (used : List Nat) : Prop where
  node_new : ∃ buildId, q.node n = narrowing buildId input used
  /-- Nothing but the input and the references changes, and inlining brings these back. -/
  node_self : ∃ j exprs, p.op id = .project j ∧
    q.node id = { p.node id with inputs := [n], op := .project { j with exprs := exprs } } ∧
    exprs.map (Expr.inline n (used.map fun i => .column ⟨input, i⟩)) = j.exprs
  columns_self : ∀ c ∈ (q.op id).columns, c.source = n ∧ c.index < used.length
  all_used : ∀ k < used.length, ⟨n, k⟩ ∈ (q.op id).columns

namespace NarrowInput

/-- It depends on the two projections only. -/
theorem congr {p' q' : Plan} (h : NarrowInput p q id n input used) (hp : p'.node id = p.node id)
    (hself : q'.node id = q.node id) (hnew : q'.node n = q.node n) :
    NarrowInput p' q' id n input used := by
  obtain ⟨j, exprs, hop, hnode, hinline⟩ := h.node_self
  refine ⟨hnew ▸ h.node_new, ⟨j, exprs, (op_congr hp).trans hop, ?_, hinline⟩, ?_, ?_⟩
  · rw [hself, hp, hnode]
  · rw [op_congr hself]
    exact h.columns_self
  · rw [op_congr hself]
    exact h.all_used

variable (h : NarrowInput p q id n input used)
include h

theorem inputs_self : q.inputs id = [n] := by
  obtain ⟨j, exprs, -, hnode, -⟩ := h.node_self
  rw [inputs, hnode]

theorem op_new : q.op n =
    .project (.plain (used.map fun i => .column ⟨input, i⟩) (used.map fun _ => "")) := by
  obtain ⟨buildId, hnode⟩ := h.node_new
  rw [Plan.op, hnode]
  rfl

/-- The new projection has no window function. -/
theorem not_narrowable_new {i : NodeId} {us : List Nat} : ¬ q.Narrowable n i us := by
  intro hnarrow
  obtain ⟨j, hop, hwindow⟩ := hnarrow.windowed
  obtain rfl := Operator.project.inj (h.op_new.symm.trans hop)
  have hnone : ∀ e ∈ used.map fun i => Expr.column ⟨input, i⟩, e.isWindow = false := fun e he => by
    obtain ⟨i, -, rfl⟩ := mem_map.mp he
    rfl
  obtain ⟨e, he, hwindow⟩ := any_eq_true.mp hwindow
  rw [hnone e he] at hwindow
  cases hwindow

/-- The projection above leaves no column of the new one out. -/
theorem not_narrowable_self (hq : q.Scoped) (hn : n ∈ q.order) {i : NodeId} {us : List Nat} :
    ¬ q.Narrowable id i us := by
  intro hnarrow
  obtain rfl := singleton_inj.mp (h.inputs_self.symm.trans hnarrow.inputs_eq)
  obtain ⟨width, hwidth, k, hk, hunused⟩ := hnarrow.unused
  have hcount : q.columnCount n = used.length := by
    rw [hq.arranged.columnCount_of_own hn (by rw [h.op_new]; rfl)]
    exact length_map _
  obtain rfl := Except.ok.inj (hwidth.symm.trans (hq.arranged.width_eq hn))
  exact hunused ((hnarrow.mem_iff k).mpr (h.all_used k (hcount ▸ hk)))

end NarrowInput

/-- A step gives the projection a narrow input. -/
theorem NarrowedAt.narrowInput (f : NarrowedAt p q id input used) :
    NarrowInput p q id p.nextId input used := by
  obtain ⟨j, hop, -⟩ := f.narrowable.windowed
  refine ⟨f.node_new, ⟨j, j.exprs.map (Expr.mapColumns fun c => Result.valueOr c
      (redirectColumn input p.nextId (some (.ofKept used))
        (ColumnRef.range p.nextId used.length) c)), hop, ?_, ?_⟩, fun c hc => ?_, fun k hk => ?_⟩
  · have hmoved : (p.node id).op = .project j := hop
    have hinputs : (p.node id).inputs = [input] := f.narrowable.inputs_eq
    have hop' : (p.node id).movedOp input p.nextId (some (.ofKept used))
        (ColumnRef.range p.nextId used.length) = .project { j with
          exprs := j.exprs.map (Expr.mapColumns fun c => Result.valueOr c
            (redirectColumn input p.nextId (some (.ofKept used))
              (ColumnRef.range p.nextId used.length) c)) } := by
      unfold Node.movedOp
      rw [hmoved]
      dsimp only
      split <;> rfl
    rw [f.node_self, Node.moved, hop', hinputs, map_singleton, NodeId.replaced_self]
  · rw [map_map]
    refine (map_congr_left fun e he => Expr.inline_mapColumns fun c hc => ?_).trans (map_id' _)
    have hcolumn : c ∈ (p.op id).columns := by
      rw [hop]
      exact Operator.mem_columns.mpr ⟨e, he, hc⟩
    obtain ⟨k, hk, hredirect⟩ := f.redirectColumn_eq hcolumn
    rw [hredirect]
    refine Expr.inline_column rfl ?_
    change (used.map _)[k]? = _
    rw [getElem?_map, hk, ← f.narrowable.only c hcolumn]
    rfl
  · obtain ⟨d, -, hsource, hindex⟩ := f.columns_self.mp hc
    exact ⟨hsource, (List.getElem?_eq_some_iff.mp hindex).1⟩
  · have hread := (f.narrowable.mem_iff used[k]).mp (getElem_mem hk)
    exact f.columns_self.mpr ⟨_, hread, rfl, getElem?_eq_getElem hk⟩

/-! ### The plan before and after -/

/-- The outcome of narrowing inputs, given the node below each projection that got one. -/
structure Narrowed (p q : Plan) (below : NodeId → Option NodeId) : Prop where
  order_eq : q.order = p.order.flatMap fun id => (below id).toList ++ [id]
  size_le : p.arena.size ≤ q.arena.size
  below_new : ∀ id n, below id = some n →
    id ∈ p.order ∧ p.arena.size ≤ n.index ∧ n.index < q.arena.size
  node_eq : ∀ id ∈ p.order, below id = none → q.node id = p.node id
  narrow : ∀ id n, below id = some n →
    ∃ input used, p.Narrowable id input used ∧ NarrowInput p q id n input used

namespace Narrowed

variable {below : NodeId → Option NodeId} {done rest : List NodeId}

theorem refl (p : Plan) : Narrowed p p fun _ => none where
  order_eq := (flatMap_singleton' p.order).symm
  size_le := Nat.le_refl _
  below_new := nofun
  node_eq _ _ _ := rfl
  narrow := nofun

theorem mem_order (hs : Narrowed p q below) {x : NodeId} :
    x ∈ q.order ↔ ∃ id ∈ p.order, below id = some x ∨ x = id := by
  rw [hs.order_eq, mem_flatMap]
  simp only [mem_append, Option.mem_toList, mem_singleton]

theorem live (hs : Narrowed p q below) {x : NodeId} (hx : x ∈ p.order) : x ∈ q.order :=
  hs.mem_order.mpr ⟨x, hx, .inr rfl⟩

/-- The nodes from before and the new ones are different. -/
theorem below_ne (hs : Narrowed p q below) (h : p.Scoped) {x : NodeId} (hx : x ∈ p.order)
    (hn : below id = some n) : n ≠ x := by
  rintro rfl
  exact absurd (h.inArena hx) (Nat.not_lt_of_le (hs.below_new id n hn).2.1)

/-- One more projection gets a narrow input. -/
theorem step (hs : Narrowed p r below) (h : p.Scoped) (hsplit : p.order = done ++ id :: rest)
    (hnone : below id = none) (hnarrow : p.Narrowable id input used)
    (f : NarrowedAt r q id input used) :
    Narrowed p q (Function.update below id (some r.nextId)) := by
  have hid : id ∈ p.order := hsplit ▸ by simp
  have hle : r.arena.size ≤ q.arena.size := f.size_eq ▸ Nat.le_succ _
  refine ⟨?_, Nat.le_trans hs.size_le hle, fun a n ha => ?_, fun x hx hxnone => ?_,
    fun a n ha => ?_⟩
  · obtain ⟨pre, post, hbefore, hafter⟩ := f.order_eq
    rw [hafter]
    refine (congrArg (pre ++ ·) ?_).trans (flatMap_replaced hsplit h.nodup
      (hbefore.symm.trans hs.order_eq) (hbefore ▸ f.inSight.nodup) (by rw [hnone]; rfl)
      fun x hx => ?_)
    · rw [Function.update_self]
      rfl
    · rw [Function.update_of_ne hx]
  · by_cases haid : a = id
    · rw [haid, Function.update_self] at ha
      cases ha
      exact ⟨haid ▸ hid, hs.size_le, f.size_eq ▸ Nat.lt_succ_self _⟩
    · rw [Function.update_of_ne haid] at ha
      obtain ⟨halive, hge, hlt⟩ := hs.below_new a n ha
      exact ⟨halive, hge, Nat.lt_of_lt_of_le hlt hle⟩
  · have hxid : x ≠ id := by
      rintro rfl
      rw [Function.update_self] at hxnone
      cases hxnone
    rw [Function.update_of_ne hxid] at hxnone
    rw [f.node_other x (hs.live hx) hxid, hs.node_eq x hx hxnone]
  · by_cases haid : a = id
    · subst haid
      rw [Function.update_self] at ha
      cases ha
      exact ⟨input, used, hnarrow,
        f.narrowInput.congr (hs.node_eq a hid hnone).symm rfl rfl⟩
    · rw [Function.update_of_ne haid] at ha
      obtain ⟨i, us, hnarrow', hinput⟩ := hs.narrow a n ha
      have halive := (hs.below_new a n ha).1
      have hn : n ∈ r.order := hs.mem_order.mpr ⟨a, halive, .inl ha⟩
      exact ⟨i, us, hnarrow', hinput.congr rfl (f.node_other a (hs.live halive) haid)
        (f.node_other n hn (hs.below_ne h hid ha))⟩

/-- Afterwards no input may be narrow, if none is that was left alone. -/
theorem not_narrowable (hs : Narrowed p q below) (hq : q.Scoped)
    (hkept : ∀ id ∈ p.order, below id = none → ∀ input used, ¬ q.Narrowable id input used) :
    ∀ x ∈ q.order, ∀ input used, ¬ q.Narrowable x input used := by
  intro x hx
  obtain ⟨id, hid, hbelow⟩ := hs.mem_order.mp hx
  rcases hbelow with hx | rfl
  · obtain ⟨_, _, -, hinput⟩ := hs.narrow id x hx
    exact fun _ _ => hinput.not_narrowable_new
  · cases hbelow : below x with
    | none => exact hkept x hid hbelow
    | some n =>
        obtain ⟨_, _, -, hinput⟩ := hs.narrow x n hbelow
        exact fun _ _ => hinput.not_narrowable_self hq (hs.mem_order.mpr ⟨x, hid, .inl hbelow⟩)

end Narrowed

/-- If no input may be narrow, the pass changes nothing. -/
theorem Scoped.narrowWindows_eq_self (h : p.Scoped)
    (hnone : ∀ id ∈ p.order, ∀ input used, ¬ p.Narrowable id input used) (next : Nat) :
    p.narrowWindows next = .ok (p, next) :=
  Fresh.foldlM_steady fun id hid => by
    rcases h.narrowWindow_cases hid next with ⟨hkeep, -⟩ | ⟨input, used, q, -, f⟩
    · exact hkeep
    · exact absurd f.narrowable (hnone id hid input used)

/-! ### The run -/

/-- Whether the input of a node may be narrow stays open if the node stays as it is and no node from
before comes to have more or fewer columns. -/
theorem Scoped.narrowable_congr (hp : p.Scoped) (hq : q.Scoped) (hid : id ∈ p.order)
    (hnode : q.node id = p.node id) (hlive : ∀ x ∈ p.order, x ∈ q.order)
    (hcount : ∀ x ∈ p.order, q.columnCount x = p.columnCount x) :
    q.Narrowable id input used ↔ p.Narrowable id input used := by
  have hwidth : ∀ i ∈ p.inputs id, q.width i = p.width i := fun i hi => by
    have hi := hp.arranged.mem_of_input hid hi
    rw [hp.arranged.width_eq hi, hq.arranged.width_eq (hlive i hi), hcount i hi]
  constructor
  · intro hnarrow
    exact hnarrow.congr hnode.symm
      (hwidth input (inputs_congr hnode ▸ hnarrow.input_mem)).symm
  · intro hnarrow
    exact hnarrow.congr hnode (hwidth input hnarrow.input_mem)

/-- A plan on the way of the loop: what was looked at has a narrow input, or may have none. -/
structure NarrowedUpTo (p r : Plan) (below : NodeId → Option NodeId) (done : List NodeId) : Prop
    extends Narrowed p r below where
  inSight : r.Scoped
  columnCount_eq : ∀ x ∈ p.order, r.columnCount x = p.columnCount x
  below_done : ∀ a n, below a = some n → a ∈ done
  settled : ∀ a ∈ done, below a = none → ∀ input used, ¬ p.Narrowable a input used

namespace NarrowedUpTo

variable {below : NodeId → Option NodeId} {done rest : List NodeId}

theorem start (h : p.Scoped) : p.NarrowedUpTo p (fun _ => none) [] where
  toNarrowed := .refl p
  inSight := h
  columnCount_eq _ _ := rfl
  below_done := nofun
  settled := nofun

variable (hs : p.NarrowedUpTo r below done) (h : p.Scoped) (hsplit : p.order = done ++ id :: rest)
include hs h hsplit

theorem below_eq_none : below id = none :=
  Option.eq_none_iff_forall_ne_some.mpr fun n hn =>
    (nodup_append.mp (hsplit ▸ h.nodup)).2.2 id (hs.below_done id n hn) id mem_cons_self rfl

theorem narrowable_iff : r.Narrowable id input used ↔ p.Narrowable id input used :=
  have hid : id ∈ p.order := hsplit ▸ by simp
  h.narrowable_congr hs.inSight hid (hs.node_eq id hid (hs.below_eq_none h hsplit))
    (fun _ => hs.live) hs.columnCount_eq

/-- One more node was looked at. -/
theorem visit (next : Nat) : ∃ q next' below', r.narrowWindow id next = .ok (q, next') ∧
    p.NarrowedUpTo q below' (done ++ [id]) := by
  have hid : id ∈ p.order := hsplit ▸ by simp
  have hnone := hs.below_eq_none h hsplit
  have hiff : ∀ input used, r.Narrowable id input used ↔ p.Narrowable id input used :=
    fun _ _ => hs.narrowable_iff h hsplit
  rcases hs.inSight.narrowWindow_cases (hs.live hid) next with
    ⟨hkeep, hnot⟩ | ⟨input, used, q, hstep, f⟩
  · refine ⟨r, next, below, hkeep, { hs with
      below_done := fun a n ha => mem_append_left _ (hs.below_done a n ha)
      settled := fun a ha hbelow => ?_ }⟩
    rcases mem_append.mp ha with ha | ha
    · exact hs.settled a ha hbelow
    · rw [mem_singleton.mp ha]
      exact fun input used hnarrow => hnot input used ((hiff input used).mpr hnarrow)
  · refine ⟨q, next + 1, _, hstep, hs.step h hsplit hnone ((hiff input used).mp f.narrowable) f,
      f.scoped_narrowed, fun x hx => ?_, fun a n ha => ?_, fun a ha hbelow => ?_⟩
    · rw [f.columnCount_eq x (hs.live hx), hs.columnCount_eq x hx]
    · by_cases haid : a = id
      · exact mem_append_right _ (mem_singleton.mpr haid)
      · rw [Function.update_of_ne haid] at ha
        exact mem_append_left _ (hs.below_done a n ha)
    · have haid : a ≠ id := by
        rintro rfl
        rw [Function.update_self] at hbelow
        cases hbelow
      rw [Function.update_of_ne haid] at hbelow
      exact hs.settled a ((mem_append.mp ha).resolve_right (by simpa using haid)) hbelow

end NarrowedUpTo

/-- **Narrowing inputs is exact and idempotent.** It succeeds, and exactly those projections get a
narrow input for which one may be had. They compute what they did, everything else stays as it is,
and a second run changes nothing. -/
theorem window_narrowing_exact (h : p.Scoped) (next : Nat) :
    ∃ q next' below, p.narrowWindows next = .ok (q, next') ∧ q.Scoped ∧ Narrowed p q below ∧
      (∀ id ∈ p.order,
        (below id).isSome = true ↔ ∃ input used, p.Narrowable id input used) ∧
      ∀ again, q.narrowWindows again = .ok (q, again) := by
  have hrun : ∃ t, p.order.foldlM (fun (s : Plan × Nat) id => narrowWindow s.1 id s.2) (p, next) =
      .ok t ∧ ∃ below, p.NarrowedUpTo t.1 below p.order := by
    refine Result.foldlM_ok
      (motive := fun done (s : Plan × Nat) => ∃ below, p.NarrowedUpTo s.1 below done)
      ⟨_, .start h⟩ fun done id rest s hsplit ⟨below, hs⟩ => ?_
    obtain ⟨q, next', below', hstep, hs'⟩ := hs.visit h hsplit s.2
    exact ⟨(q, next'), hstep, below', hs'⟩
  obtain ⟨⟨q, next'⟩, hq, below, hs⟩ := hrun
  have hnone : ∀ x ∈ q.order, ∀ input used, ¬ q.Narrowable x input used :=
    hs.not_narrowable hs.inSight fun id hid hbelow input used hnarrow =>
      hs.settled id hid hbelow input used ((h.narrowable_congr hs.inSight hid
        (hs.node_eq id hid hbelow) (fun _ => hs.live) hs.columnCount_eq).mp hnarrow)
  refine ⟨q, next', below, ?_, hs.inSight, hs.toNarrowed, fun id hid => ?_,
    hs.inSight.narrowWindows_eq_self hnone⟩
  · rw [narrowWindows, Fresh.foldlM_eq]
    exact hq
  · constructor
    · intro hsome
      obtain ⟨n, hn⟩ := Option.isSome_iff_exists.mp hsome
      obtain ⟨input, used, hnarrow, -⟩ := hs.narrow id n hn
      exact ⟨input, used, hnarrow⟩
    · rintro ⟨input, used, hnarrow⟩
      by_contra hbelow
      exact hs.settled id hid (Option.not_isSome_iff_eq_none.mp hbelow) input used hnarrow

/-- Row numbers over one column of a wide table, and over all columns of what shows them. -/
def numberedColumns : Plan :=
  let number (partition : ColumnRef) : Expr :=
    .app (.window { (default : WindowCall) with kind := .rowNumber }) [.column partition]
  { arena := #[.make 0 [] (.values ⟨["a", "b", "c", "d"].map fun n => ⟨n, .condition⟩, []⟩),
      .make 1 [⟨0⟩] (.project (.plain [.column ⟨⟨0⟩, 3⟩, number ⟨⟨0⟩, 1⟩] ["d", "n"])),
      .make 2 [⟨1⟩] (.project (.plain [number ⟨⟨1⟩, 1⟩, .column ⟨⟨1⟩, 0⟩] ["m", "d"]))]
    order := (range 3).map NodeId.mk }

/-- Only the first projection gets a narrow input, which shows the two columns that it reads. -/
theorem window_narrowing_exact_numberedColumns : numberedColumns.Scoped ∧
    ∃ q next' below, numberedColumns.narrowWindows 3 = .ok (q, next') ∧
      Narrowed numberedColumns q below ∧ q.order = [⟨0⟩, ⟨3⟩, ⟨1⟩, ⟨2⟩] ∧
      (q.op ⟨3⟩).columns = [⟨⟨0⟩, 1⟩, ⟨⟨0⟩, 3⟩] ∧ (q.op ⟨1⟩).columns = [⟨⟨3⟩, 1⟩, ⟨⟨3⟩, 0⟩] ∧
        q.narrowWindows next' = .ok (q, next') := by
  have h : numberedColumns.Scoped :=
    scoped_of_reads ⟨⟨by decide, by decide, by decide⟩, by decide⟩ (by decide +kernel)
  obtain ⟨q, next', below, hq, -, hs, -, hagain⟩ := window_narrowing_exact h 3
  have hrun : (numberedColumns.narrowWindows 3).holds (fun s =>
      s.1.order == [⟨0⟩, ⟨3⟩, ⟨1⟩, ⟨2⟩] && (s.1.op ⟨3⟩).columns == [⟨⟨0⟩, 1⟩, ⟨⟨0⟩, 3⟩] &&
        (s.1.op ⟨1⟩).columns == [⟨⟨3⟩, 1⟩, ⟨⟨3⟩, 0⟩]) = true := by cbv
  obtain ⟨s, hs', hresult⟩ := Result.holds_eq_true.mp hrun
  obtain rfl : (q, next') = s := Except.ok.inj (hq.symm.trans hs')
  simp only [Bool.and_eq_true, beq_iff_eq] at hresult
  exact ⟨h, q, next', below, hq, hs, hresult.1.1, hresult.1.2, hresult.2, hagain next'⟩

end Plan

end QueryPlan
