import QueryPlan.Proofs.RedundantSorts.Step
import Mathlib
/-!
# QueryPlan.Proofs.RedundantSorts.Exactness

**What sorts that leave are missed for.** The pass looks at who reads a sort, but not at who reads
the projections between it and the later sort, and it traces columns through projections over a
join without regard to the side that they come from. If neither matters for any sort that it takes
out (`Plan.SortsGiveWay`), the root has the rows it had, in their order, and so has every other node
but for simple projections (`Plan.sort_removal_keeps_rows`). Otherwise rows may change: a projection
that is read twice shows unsorted rows (`Plan.sort_removal_changes_rows_sharedProjection`), and rows
may come to stand in another order that are equal by the later sort
(`Plan.sort_removal_changes_order_pairedRows`).
-/

namespace QueryPlan

open List

/-- Truth values that are ordered, `false` before `true`. -/
def Meaning.ofOrderedTruthValues : Meaning (Option Bool) :=
  let rank (direction : SortDirection) (nulls : NullOrder) : Option Bool → Nat
    | none => if nulls = .first then 0 else 3
    | some b => if b = (direction = .ascending) then 2 else 1
  { ofTruthValues with
    compare := fun direction nulls => compareOn (rank direction nulls) }

theorem Meaning.ofOrderedTruthValues_orders : ofOrderedTruthValues.Orders := fun _ _ =>
  inferInstanceAs (Std.TransCmp (compareOn _))

namespace Plan

variable {p q r : Plan} {id x : NodeId}

/-! ### Sorts that may leave -/

/-- A sort, and the simple projections through which others read it, are each read once. -/
def SoleReaders (p : Plan) (earlier : NodeId) : Prop :=
  ∀ x ∈ p.order, (p.readsThroughProjects earlier p.walkBound x).holds (fun reads => reads) = true →
    p.useCount x = 1

instance (p : Plan) (earlier : NodeId) : Decidable (p.SoleReaders earlier) :=
  inferInstanceAs (Decidable (∀ x ∈ p.order, _ → _))

/-- If a sort is taken out because of a node, it is seen by nothing else, and columns are not
traced to both sides of a join. -/
def SortGivesWay (state : Plan × Option NodeId) (id : NodeId) : Prop :=
  ∀ earlier ∈ state.2,
    (state.1.isRedundantSort earlier id).holds (fun redundant => redundant) = true →
      state.1.SoleReaders earlier ∧ state.1.SidesApart

instance (state : Plan × Option NodeId) (id : NodeId) : Decidable (SortGivesWay state id) :=
  inferInstanceAs (Decidable (∀ earlier ∈ state.2, _ → _))

/-- Every sort that the pass takes out may leave when its turn comes. -/
def SortsGiveWay (p : Plan) : Prop :=
  Result.Along simplifySort SortGivesWay p.order (p, none)

instance (p : Plan) : Decidable p.SortsGiveWay :=
  inferInstanceAs (Decidable (Result.Along _ _ _ _))

namespace Unambiguous

variable (h : p.Unambiguous)
include h

/-- A sort that is taken out may leave. -/
theorem resorted {earlier later input : NodeId} {changed : List NodeId}
    (hagain : p.SortedAgain earlier later) (hlater : later ∈ p.order)
    (hway : SortGivesWay (p, some earlier) later) (f : Lowered p r earlier input changed) :
    ∃ s t, Resorted p r earlier later input s t changed := by
  have hordered := h.arranged.toOrdered
  have hredundant := (hordered.isRedundantSort_iff hlater).mpr hagain
  obtain ⟨s, hop, hplain⟩ := hagain.plain
  obtain ⟨t, hopLater⟩ := hagain.later_sort
  obtain ⟨hsole, hapart⟩ := hway earlier rfl (Result.holds_eq_true.mpr ⟨true, hredundant, rfl⟩)
  refine ⟨s, t, { f with
    unambiguous := h
    later_live := hlater
    op_earlier := hop
    op_later := hopLater
    plain := hplain
    through := hagain.through
    sole := fun x hx hx' => hsole x hx ?_
    sidesApart := hapart
    agree := hagain.agree }⟩
  have hreads := hordered.readsThroughProjects_of_through hx hx'
  exact Result.holds_eq_true.mpr ⟨true, hreads, rfl⟩

/-- A step takes out the last sort that was seen, or leaves the plan alone. -/
theorem simplifySort_ok {earlier : Option NodeId} (hid : id ∈ p.order)
    (hearlier : ∀ e, earlier = some e → e ∈ p.order) (hway : SortGivesWay (p, earlier) id) :
    (∃ last, simplifySort (p, earlier) id = .ok (p, last) ∧
      (last = some id ∨ last = earlier ∨ last = none)) ∨
    ∃ e r input s t changed, earlier = some e ∧
      simplifySort (p, earlier) id = .ok (r.remove e, some id) ∧
        Resorted p r e id input s t changed := by
  rcases h.toScoped.simplifySort_step hid hearlier with
    ⟨hok, -⟩ | ⟨hok, -⟩ | ⟨hok, -⟩ | ⟨e, r, input, changed, rfl, hok, hagain, f⟩
  · exact .inl ⟨_, hok, .inl rfl⟩
  · exact .inl ⟨_, hok, .inr (.inl rfl)⟩
  · exact .inl ⟨_, hok, .inr (.inr rfl)⟩
  · obtain ⟨s, t, f⟩ := h.resorted hagain hid hway f
    exact .inr ⟨e, r, input, s, t, changed, rfl, hok, f⟩

end Unambiguous

/-! ### The run -/

/-- A plan from which sorts were taken out: the root has the rows it had, in their order, and so has
everything but for simple projections. -/
structure SortsRemoved (p q : Plan) : Prop where
  unambiguous : q.Unambiguous
  root_eq : q.root? = p.root?
  isSimpleProject_eq : ∀ x ∈ q.order, q.isSimpleProject x = p.isSimpleProject x
  rows_eq : ∀ {V : Type} [DecidableEq V] {M : Meaning V}, M.Orders → ∀ x ∈ q.order,
    p.root? = some x ∨ p.isSimpleProject x = false → q.rows M x = p.rows M x

theorem SortsRemoved.step {earlier later input : NodeId} {s t : Sorting} {changed : List NodeId}
    (hs : SortsRemoved p q) (f : Resorted q r earlier later input s t changed) :
    SortsRemoved p (r.remove earlier) := by
  have hlive : ∀ x ∈ (r.remove earlier).order, x ∈ q.order ∧ x ≠ earlier := fun x hx => by
    rw [← f.order_eq]
    exact mem_order_remove.mp hx
  have hroot : q.root? ≠ some earlier := fun hroot => f.not_through_of_root hroot .refl
  have hrRoot : r.root? = q.root? := by rw [root?, f.order_eq]; rfl
  refine ⟨f.unambiguous_resorted.remove fun n hn _ => f.not_mem_inputs (f.order_eq ▸ hn), ?_,
    fun x hx => ?_, fun hM x hx hkept => ?_⟩
  · rw [root?_remove (hrRoot ▸ hroot), hrRoot, hs.root_eq]
  · obtain ⟨hx, -⟩ := hlive x hx
    exact (f.isSimpleProject_eq hx).trans (hs.isSimpleProject_eq x hx)
  · obtain ⟨hx, hne⟩ := hlive x hx
    rw [← hs.rows_eq hM x hx hkept]
    refine f.rows_eq hM x hx fun hthrough => ?_
    rcases hkept with hkept | hkept
    · exact f.not_through_of_root (hs.root_eq.trans hkept) hthrough
    · -- What reads the sort is a simple projection still.
      rcases Relation.ReflTransGen.cases_head hthrough with rfl | ⟨y, hrelays, -⟩
      · exact hne rfl
      · rw [← hs.isSimpleProject_eq x hx, hrelays.1] at hkept
        cases hkept

/-- Taking out sorts succeeds and keeps the rows of the root, in their order, if every sort that is
taken out may leave. Everything else keeps its rows as well, but for simple projections. -/
theorem sort_removal_keeps_rows (h : p.Unambiguous) (hway : p.SortsGiveWay) :
    ∃ q, p.simplifySorts = .ok q ∧ SortsRemoved p q := by
  have hloop : ∃ s, p.order.foldlM simplifySort (p, none) = .ok s ∧
      SortsRemoved p s.1 ∧ p.SortsSeen p.order s ∧
        Result.Along simplifySort SortGivesWay (p.order.drop p.order.length) s := by
    refine Result.foldlM_ok (motive := fun done s => SortsRemoved p s.1 ∧ p.SortsSeen done s ∧
        Result.Along simplifySort SortGivesWay (p.order.drop done.length) s)
      ⟨⟨h, rfl, fun _ _ => rfl, fun _ _ _ _ => rfl⟩, .start p, hway⟩ ?_
    rintro done a rest ⟨r, earlier⟩ hsplit ⟨hs, hseen, halong⟩
    rw [hsplit, drop_left] at halong
    have hdrop : p.order.drop (done ++ [a]).length = rest := by
      rw [hsplit, append_cons done a rest, drop_left]
    rw [hdrop]
    rcases hs.unambiguous.simplifySort_ok (hseen.mem h.nodup hsplit).1
        (fun e he => (hseen.earlier e he).2) halong.1 with
      ⟨last, hok, hlast⟩ | ⟨e, r', input, s, t, changed, rfl, hok, f⟩
    · exact ⟨_, hok, hs, hseen.keep h.nodup hsplit hlast, (halong.step hok).2⟩
    · refine ⟨_, hok, hs.step f, hseen.replace h.nodup hsplit rfl ?_, (halong.step hok).2⟩
      rw [order_remove, f.order_eq]
  obtain ⟨s, hs, hremoved, -⟩ := hloop
  exact ⟨s.1, Result.bind_ok hs, hremoved⟩

/-- Sorts around a grouping and projections that duplicate and swap columns. -/
def resortedGroups : Plan :=
  let sort (column : Nat) : Operator := .sort ⟨[⟨column, .ascending, .last⟩], none, 0, false⟩
  let project (columns : List ColumnRef) (names : List String) : Operator :=
    .project (.plain (columns.map Expr.column) names)
  { arena := #[.make 0 [] (.values ⟨[⟨"a", .condition⟩, ⟨"b", .condition⟩],
        [[.bool true, .bool true], [.bool false, .bool true]]⟩),
      .make 1 [⟨0⟩] (.aggregate ⟨1, [], ["a"], false⟩),
      .make 2 [⟨1⟩] (project [⟨⟨1⟩, 0⟩, ⟨⟨1⟩, 0⟩] ["x", "y"]),
      .make 3 [⟨2⟩] (sort 1),
      .make 4 [⟨3⟩] (project [⟨⟨3⟩, 1⟩, ⟨⟨3⟩, 0⟩] ["y", "x"]),
      .make 5 [⟨4⟩] (sort 1)]
    order := (range 6).map NodeId.mk }

/-- The first sort leaves, for the later key holds a copy of the values of its key. -/
theorem sort_removal_keeps_rows_resortedGroups : resortedGroups.Unambiguous ∧
    resortedGroups.SortsGiveWay ∧ Meaning.ofOrderedTruthValues.Orders ∧
      ∃ q, resortedGroups.simplifySorts = .ok q ∧ q.order = [⟨0⟩, ⟨1⟩, ⟨2⟩, ⟨4⟩, ⟨5⟩] ∧
        q.rows .ofOrderedTruthValues ⟨5⟩ =
          [[some false, some false], [some true, some true]] := by
  have h : resortedGroups.Unambiguous :=
    ⟨scoped_of_reads ⟨⟨by decide, by decide, by decide⟩, by decide⟩ (by decide +kernel), by decide⟩
  have hway : resortedGroups.SortsGiveWay := by decide +kernel
  have hM := Meaning.ofOrderedTruthValues_orders
  obtain ⟨q, hq, hremoved⟩ := sort_removal_keeps_rows h hway
  have hrun : resortedGroups.simplifySorts.holds
      (fun q => q.order == [⟨0⟩, ⟨1⟩, ⟨2⟩, ⟨4⟩, ⟨5⟩]) = true := by decide +kernel
  obtain ⟨q', hq', horder⟩ := Result.holds_eq_true.mp hrun
  obtain rfl : q = q' := Except.ok.inj (hq.symm.trans hq')
  have horder : q.order = [⟨0⟩, ⟨1⟩, ⟨2⟩, ⟨4⟩, ⟨5⟩] := eq_of_beq horder
  refine ⟨h, hway, hM, q, hq, horder, ?_⟩
  rw [hremoved.rows_eq hM ⟨5⟩ (horder ▸ by decide) (.inl (by decide))]
  cbv

/-! ### Sorts that are missed -/

/-- A projection of sorted rows, which a sort and a limit read. -/
def sharedProjection : Plan :=
  let sort : Operator := .sort ⟨[⟨0, .ascending, .last⟩], none, 0, false⟩
  { arena := #[.make 0 [] (.values ⟨[⟨"a", .condition⟩], [[.bool true], [.bool false]]⟩),
      .make 1 [⟨0⟩] sort,
      .make 2 [⟨1⟩] (.project (.plain [.column ⟨⟨1⟩, 0⟩] ["a"])),
      .make 3 [⟨2⟩] sort,
      .make 4 [⟨2⟩] (.sort ⟨[], some 1, 0, false⟩),
      .make 5 [⟨4⟩, ⟨3⟩] (.join ⟨.bool true, .inner⟩)]
    order := (range 6).map NodeId.mk }

/-- The limit takes the first of the unsorted rows once the sort has left, so the root has other
rows. -/
theorem sort_removal_changes_rows_sharedProjection : sharedProjection.Unambiguous ∧
    Meaning.ofOrderedTruthValues.Orders ∧ ∃ q, sharedProjection.simplifySorts = .ok q ∧
      q.root? = some ⟨5⟩ ∧
      sharedProjection.rows .ofOrderedTruthValues ⟨5⟩ =
        [[some false, some false], [some false, some true]] ∧
      q.rows .ofOrderedTruthValues ⟨5⟩ =
        [[some true, some false], [some true, some true]] := by
  have h : sharedProjection.Unambiguous :=
    ⟨scoped_of_reads ⟨⟨by decide, by decide, by decide⟩, by decide⟩ (by decide +kernel), by decide⟩
  have hrun : sharedProjection.simplifySorts.holds (fun q => q.root? == some ⟨5⟩ &&
      q.rows .ofOrderedTruthValues ⟨5⟩ ==
        [[some true, some false], [some true, some true]]) = true := by cbv
  obtain ⟨q, hq, hrun⟩ := Result.holds_eq_true.mp hrun
  rw [Bool.and_eq_true, beq_iff_eq, beq_iff_eq] at hrun
  exact ⟨h, Meaning.ofOrderedTruthValues_orders, q, hq, hrun.1, by cbv, hrun.2⟩

/-- A table paired with itself, sorted by one side and then by the other one. -/
def pairedRows : Plan :=
  let sort (column : Nat) : Operator := .sort ⟨[⟨column, .ascending, .last⟩], none, 0, false⟩
  let project (columns : List ColumnRef) (names : List String) : Operator :=
    .project (.plain (columns.map Expr.column) names)
  { arena := #[.make 0 [] (.values ⟨[⟨"a", .condition⟩], [[.bool true], [.bool false]]⟩),
      .make 1 [⟨0⟩] (project [⟨⟨0⟩, 0⟩] ["a"]),
      .make 2 [⟨0⟩] (project [⟨⟨0⟩, 0⟩] ["a"]),
      .make 3 [⟨1⟩, ⟨2⟩] (.join ⟨.bool true, .inner⟩),
      .make 4 [⟨3⟩] (project [⟨⟨1⟩, 0⟩, ⟨⟨2⟩, 0⟩] ["l", "r"]),
      .make 5 [⟨4⟩] (sort 0),
      .make 6 [⟨5⟩] (sort 1)]
    order := (range 7).map NodeId.mk }

/-- Both keys are traced to one column of the table, so the first sort leaves, and rows that are
equal by the other key come in another order. -/
theorem sort_removal_changes_order_pairedRows : pairedRows.Unambiguous ∧
    Meaning.ofOrderedTruthValues.Orders ∧ ∃ q, pairedRows.simplifySorts = .ok q ∧
      q.root? = some ⟨6⟩ ∧
      pairedRows.rows .ofOrderedTruthValues ⟨6⟩ = [[some false, some false],
        [some true, some false], [some false, some true], [some true, some true]] ∧
      q.rows .ofOrderedTruthValues ⟨6⟩ = [[some true, some false],
        [some false, some false], [some true, some true], [some false, some true]] := by
  have h : pairedRows.Unambiguous :=
    ⟨scoped_of_reads ⟨⟨by decide, by decide, by decide⟩, by decide⟩ (by decide +kernel), by decide⟩
  have hrun : pairedRows.simplifySorts.holds (fun q => q.root? == some ⟨6⟩ &&
      q.rows .ofOrderedTruthValues ⟨6⟩ == [[some true, some false],
        [some false, some false], [some true, some true], [some false, some true]]) = true := by
    cbv
  obtain ⟨q, hq, hrun⟩ := Result.holds_eq_true.mp hrun
  rw [Bool.and_eq_true, beq_iff_eq, beq_iff_eq] at hrun
  exact ⟨h, Meaning.ofOrderedTruthValues_orders, q, hq, hrun.1, by cbv, hrun.2⟩

end Plan

end QueryPlan
