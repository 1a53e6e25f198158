import QueryPlan.Proofs.RedundantSorts.Removal
/-!
# QueryPlan.Proofs.RedundantSorts.Neighbours

**Which sorts are sorted again after the pass.** The pass remembers the last sort while nothing but
simple projections follows it (`Plan.LastSort`). So it compares two sorts if nothing else stands
between them in the live order (`Plan.Neighbours`), and after it none of these is sorted again
(`Plan.sort_removal_settles_neighbours`), so a second run finds nothing more. It does not look at
sorts that are further apart: rows of another branch that stand between two sorts keep the first of
them, which leaves from the same graph in another order
(`Plan.sort_removal_misses_interleavedSorts`).
-/

namespace QueryPlan

open List

namespace Plan

variable {p q r : Plan} {id input earlier later x a b c : NodeId} {changed done rest : List NodeId}

/-- Nothing but simple projections stands between two nodes. -/
def Neighbours (p : Plan) (earlier later : NodeId) : Prop :=
  [earlier, later] <+ p.order ∧
    ∀ x, [earlier, x] <+ p.order → [x, later] <+ p.order → p.isSimpleProject x = true

instance (p : Plan) (earlier later : NodeId) : Decidable (p.Neighbours earlier later) :=
  decidable_of_iff ([earlier, later] <+ p.order ∧ ∀ x ∈ p.order,
      [earlier, x] <+ p.order → [x, later] <+ p.order → p.isSimpleProject x = true)
    (and_congr_right fun _ => ⟨fun h x hx => h x (mem_right hx) hx, fun h x _ => h x⟩)

/-! ### A sort that leaves -/

namespace Lowered

variable (f : Lowered p r id input changed)
include f

/-- Up to the node that leaves, the same nodes stand between two others. -/
theorem neighbours_upto (hac : [a, c] <+ p.order) (hcid : c = id ∨ [c, id] <+ p.order)
    (hcb : c = b ∨ [c, b] <+ p.order) (hb : b ≠ id) (hab : (r.remove id).Neighbours a b) :
    p.Neighbours a c := by
  have hnodup := f.inSight.nodup
  refine ⟨hac, fun x hax hxc => ?_⟩
  have hupto : ∀ {y}, c = y ∨ [c, y] <+ p.order → [x, y] <+ p.order := by
    rintro y (rfl | hcy)
    · exact hxc
    · exact pair_sublist_trans hnodup hxc hcy
  have hxid := hupto hcid
  have hx := ne_of_pair hnodup hxid
  have ha := ne_of_pair hnodup (pair_sublist_trans hnodup hax hxid)
  rw [← f.isSimpleProject_eq (mem_left hxid)]
  refine hab.2 x (pair_remove.mpr ⟨f.order_eq ▸ hax, ha, hx⟩) (pair_remove.mpr ⟨?_, hx, hb⟩)
  rw [f.order_eq]
  exact hupto hcb

/-- If the sorts in front of a node are settled, they stay so when the last of them leaves because
of the node, and the node is settled as well. -/
theorem settled_remove (hlater : later ∈ p.order) (hagain : p.SortedAgain id later)
    (hbehind : ∀ x, [id, x] <+ p.order → [x, later] <+ p.order → p.isSimpleProject x = true)
    (hsettled : ∀ a b, [b, later] <+ p.order → p.Neighbours a b → ¬p.SortedAgain a b)
    (hb : b = later ∨ [b, later] <+ p.order) (hab : (r.remove id).Neighbours a b) :
    ¬(r.remove id).SortedAgain a b := by
  intro hafter
  have h := f.inSight
  have hordered := h.arranged.toOrdered
  have hidLater := hagain.before hordered hlater
  have hlive := mem_right hab.1
  have hne : b ≠ id := (mem_order_remove.mp hlive).2
  rcases hb with rfl | hb
  · -- What the later sort reads now was read by the one that has left.
    have hbefore := f.sortedAgain_removed hlater hagain hafter
    have ha := hbefore.before hordered f.live
    exact hsettled a id hidLater (f.neighbours_upto ha (.inl rfl) (.inr hidLater) hne hab) hbefore
  · rcases pair_or_pair f.live (mem_left hb) hne with hidb | hbid
    · -- Behind the sort stand simple projections.
      obtain ⟨t, ht⟩ := hafter.later_sort
      have hsimple := (f.isSimpleProject_eq (mem_left hb)).trans (hbehind b hidb hb)
      cases hsimple.symm.trans (isSimpleProject_of_sort ht)
    · have hab' : [a, b] <+ p.order := f.order_eq ▸ (pair_remove.mp hab.1).1
      exact hsettled a b hb (f.neighbours_upto hab' (.inr hbid) (.inl rfl) hne hab)
        (f.sortedAgain_before hagain.sole hbid hafter)

end Lowered

/-! ### The last sort -/

/-- A sort that was seen, with nothing but simple projections seen behind it. -/
structure LastSort (p : Plan) (done : List NodeId) (a : NodeId) : Prop where
  seen : a ∈ done
  live : a ∈ p.order
  sort : ∃ s, p.op a = .sort s
  behind : ∀ x ∈ done, [a, x] <+ p.order → p.isSimpleProject x = true

/-- A node of the live order that comes behind those which were seen. -/
structure NextNode (p : Plan) (done : List NodeId) (id : NodeId) : Prop where
  nodup : p.order.Nodup
  live : id ∈ p.order
  unseen : id ∉ done
  before_iff : ∀ x ∈ p.order, [x, id] <+ p.order ↔ x ∈ done

/-- The next node of a plan is the next one of a part of it. -/
theorem nextNode_of_sublist (hnodup : p.order.Nodup) (hsplit : p.order = done ++ id :: rest)
    (hsub : q.order <+ p.order) (hid : id ∈ q.order) : q.NextNode done id := by
  have hmiddle := hsplit ▸ hnodup
  have hunseen : id ∉ done := fun hdone =>
    (nodup_append.mp hmiddle).2.2 id hdone id mem_cons_self rfl
  refine ⟨hnodup.sublist hsub, hid, hunseen, fun x hx => ⟨fun hpair => ?_, fun hdone => ?_⟩⟩
  · exact mem_left_of_pair (hsplit ▸ hpair.trans hsub) hmiddle
  · have hne : id ≠ x := fun heq => hunseen (heq ▸ hdone)
    refine (pair_or_pair hx hid hne).resolve_right fun hpair => ?_
    have hrest := mem_right_of_pair (hsplit ▸ hpair.trans hsub) hmiddle
    exact (nodup_append.mp hmiddle).2.2 x hdone x (mem_cons_of_mem _ hrest) rfl

namespace NextNode

variable (h : q.NextNode done id)
include h

/-- A sort is the last one from now on. -/
theorem lastSort_of_sort {s : Sorting} (hop : q.op id = .sort s) :
    q.LastSort (done ++ [id]) a ↔ a = id := by
  constructor
  · intro ha
    by_contra hne
    have hdone : a ∈ done := by simpa [hne] using ha.seen
    have hsimple := ha.behind id (by simp) ((h.before_iff a ha.live).mpr hdone)
    cases hsimple.symm.trans (isSimpleProject_of_sort hop)
  · rintro rfl
    refine ⟨by simp, h.live, ⟨s, hop⟩, fun x hx hpair => ?_⟩
    rcases mem_append.mp hx with hx | hx
    · exact absurd hpair (not_pair_swap h.nodup ((h.before_iff x (mem_right hpair)).mpr hx))
    · exact absurd (mem_singleton.mp hx).symm (ne_of_pair h.nodup hpair)

/-- A simple projection leaves it alone. -/
theorem lastSort_of_simple (hsimple : q.isSimpleProject id = true) :
    q.LastSort (done ++ [id]) a ↔ q.LastSort done a := by
  constructor
  · rintro ⟨hseen, hlive, hsort, hbehind⟩
    have hne : a ≠ id := by
      rintro rfl
      obtain ⟨s, hop⟩ := hsort
      cases hsimple.symm.trans (isSimpleProject_of_sort hop)
    exact ⟨by simpa [hne] using hseen, hlive, hsort, fun x hx => hbehind x (by simp [hx])⟩
  · rintro ⟨hseen, hlive, hsort, hbehind⟩
    refine ⟨by simp [hseen], hlive, hsort, fun x hx hpair => ?_⟩
    rcases mem_append.mp hx with hx | hx
    · exact hbehind x hx hpair
    · exact mem_singleton.mp hx ▸ hsimple

/-- Anything else comes behind every sort, so there is none left. -/
theorem not_lastSort (hsimple : q.isSimpleProject id = false) (hop : ∀ s, q.op id ≠ .sort s) :
    ¬q.LastSort (done ++ [id]) a := by
  rintro ⟨hseen, hlive, ⟨s, hsort⟩, hbehind⟩
  have hne : a ≠ id := by
    rintro rfl
    exact hop s hsort
  have hdone : a ∈ done := by simpa [hne] using hseen
  cases hsimple.symm.trans (hbehind id (by simp) ((h.before_iff a hlive).mpr hdone))

/-- A neighbour that the next node sorts again is the last sort. -/
theorem lastSort_of_again (hab : q.Neighbours a id) (hagain : q.SortedAgain a id) :
    q.LastSort done a := by
  have ha := mem_left hab.1
  obtain ⟨s, hop, -⟩ := hagain.plain
  refine ⟨(h.before_iff a ha).mp hab.1, ha, ⟨s, hop⟩, fun x hx hax => ?_⟩
  exact hab.2 x hax ((h.before_iff x (mem_right hax)).mpr hx)

theorem neighbours_of_lastSort (hlast : q.LastSort done a) : q.Neighbours a id := by
  refine ⟨(h.before_iff a hlast.live).mpr hlast.seen, fun x hax hx => ?_⟩
  exact hlast.behind x ((h.before_iff x (mem_left hx)).mp hx) hax

end NextNode

/-! ### The run -/

/-- The pass after some of the live nodes. Plain sorts were taken out, and no sort that was seen
sorts a neighbour again. -/
structure SortsSettled (p : Plan) (done : List NodeId) (s : Plan × Option NodeId) : Prop where
  seen : p.SortsSeen done s
  inSight : s.1.Scoped
  sublist : s.1.order <+ p.order
  gone : ∀ x ∈ p.order, x ∉ s.1.order → ∃ t, p.op x = .sort t ∧ t.isPlain = true
  op_sort : ∀ x ∈ s.1.order, ∀ t, s.1.op x = .sort t → p.op x = .sort t
  last_iff : ∀ a, s.2 = some a ↔ s.1.LastSort done a
  settled : ∀ a, ∀ b ∈ done, s.1.Neighbours a b → ¬s.1.SortedAgain a b

namespace SortsSettled

variable {s : Plan × Option NodeId}

theorem start (h : p.Scoped) : SortsSettled p [] (p, none) where
  seen := .start p
  inSight := h
  sublist := .refl _
  gone _ hx hgone := absurd hx hgone
  op_sort _ _ _ hop := hop
  last_iff _ := ⟨nofun, fun h => by cases h.seen⟩
  settled _ _ hb := by cases hb

variable (h : SortsSettled p done s) (hnodup : p.order.Nodup)
  (hsplit : p.order = done ++ id :: rest)
include h hnodup hsplit

theorem nextNode : s.1.NextNode done id :=
  nextNode_of_sublist hnodup hsplit h.sublist (h.seen.mem hnodup hsplit).1

/-- The plan stays, and the last sort is remembered. -/
theorem keep {last : Option NodeId} (hlast : last = some id ∨ last = s.2 ∨ last = none)
    (hiff : ∀ a, last = some a ↔ s.1.LastSort (done ++ [id]) a)
    (hid : ∀ a, s.1.Neighbours a id → ¬s.1.SortedAgain a id) :
    SortsSettled p (done ++ [id]) (s.1, last) where
  seen := h.seen.keep hnodup hsplit hlast
  inSight := h.inSight
  sublist := h.sublist
  gone := h.gone
  op_sort := h.op_sort
  last_iff := hiff
  settled a b hb := by
    rcases mem_append.mp hb with hb | hb
    · exact h.settled a b hb
    · exact mem_singleton.mp hb ▸ hid a

/-- The last sort leaves, and the node takes its place. -/
theorem replace {e : NodeId} (he : s.2 = some e) (hagain : s.1.SortedAgain e id)
    (f : Lowered s.1 r e input changed) : SortsSettled p (done ++ [id]) (r.remove e, some id) := by
  have hnext := h.nextNode hnodup hsplit
  have hlast := (h.last_iff e).mp he
  have horder : (r.remove e).order = s.1.order.filter fun n => n != e := by
    rw [order_remove, f.order_eq]
  have hsub : (r.remove e).order <+ s.1.order := horder ▸ filter_sublist
  have hid : id ∈ (r.remove e).order := by
    rw [mem_order_remove, f.order_eq]
    exact ⟨hnext.live, fun heq => hnext.unseen (heq ▸ hlast.seen)⟩
  have hnext' := nextNode_of_sublist hnodup hsplit (hsub.trans h.sublist) hid
  have hop : ∀ x ∈ (r.remove e).order, ∀ t, (r.remove e).op x = .sort t → s.1.op x = .sort t := by
    intro x hx t ht
    change r.op x = _ at ht
    rw [f.op_lowered (hsub.subset hx)] at ht
    exact Operator.sort_of_mapExprs ht
  refine ⟨h.seen.replace hnodup hsplit he horder, f.scoped_remove, hsub.trans h.sublist,
    fun x hx hgone => ?_, fun x hx t ht => ?_, fun a => ?_, fun a b hb hab => ?_⟩
  · by_cases hxe : x = e
    · obtain ⟨t, ht, hplain⟩ := hagain.plain
      exact hxe ▸ ⟨t, h.op_sort e f.live t ht, hplain⟩
    · refine h.gone x hx fun hlive => hgone ?_
      rw [mem_order_remove, f.order_eq]
      exact ⟨hlive, hxe⟩
  · exact h.op_sort x (hsub.subset hx) t (hop x hx t ht)
  · obtain ⟨t, ht⟩ := hagain.later_sort
    have ht' : (r.remove e).op id = .sort t := by
      change r.op id = _
      rw [f.op_lowered hnext.live, ht]
      rfl
    rw [hnext'.lastSort_of_sort ht', Option.some.injEq, eq_comm]
  · have hlive := hsub.subset (mem_right hab.1)
    refine f.settled_remove hnext.live hagain (hnext.neighbours_of_lastSort hlast).2
      (fun a b hb => ?_) ?_ hab
    · exact h.settled a b ((hnext.before_iff b (mem_left hb)).mp hb)
    · rcases mem_append.mp hb with hb | hb
      · exact .inr ((hnext.before_iff b hlive).mpr hb)
      · exact .inl (mem_singleton.mp hb)

/-- A step changes the plan only if the node sorts a neighbour again. -/
theorem step : ∃ t, simplifySort s id = .ok t ∧ SortsSettled p (done ++ [id]) t ∧
    (t.1 = s.1 ∨ ∃ e, s.1.Neighbours e id ∧ s.1.SortedAgain e id) := by
  obtain ⟨r, last⟩ := s
  have hnext := h.nextNode hnodup hsplit
  have hagain : ∀ a, r.Neighbours a id → r.SortedAgain a id → last = some a := fun a hab hagain =>
    (h.last_iff a).mpr (hnext.lastSort_of_again hab hagain)
  rcases h.inSight.simplifySort_step hnext.live fun e he => (h.seen.earlier e he).2 with
    ⟨hok, ⟨t, hop⟩, hnot⟩ | ⟨hok, hsimple⟩ | ⟨hok, hsimple, hop⟩ |
      ⟨e, r', input, changed, rfl, hok, he, f⟩
  · refine ⟨_, hok, h.keep hnodup hsplit (.inl rfl) (fun a => ?_) fun a hab ha => ?_, .inl rfl⟩
    · rw [hnext.lastSort_of_sort hop, Option.some.injEq, eq_comm]
    · exact hnot a (hagain a hab ha) ha
  · refine ⟨_, hok, h.keep hnodup hsplit (.inr (.inl rfl)) (fun a => ?_) fun a _ ha => ?_,
      .inl rfl⟩
    · rw [hnext.lastSort_of_simple hsimple]
      exact h.last_iff a
    · obtain ⟨t, ht⟩ := ha.later_sort
      cases hsimple.symm.trans (isSimpleProject_of_sort ht)
  · refine ⟨_, hok, h.keep hnodup hsplit (.inr (.inr rfl)) (fun a => ?_) fun a _ ha => ?_,
      .inl rfl⟩
    · exact iff_of_false nofun (hnext.not_lastSort hsimple hop)
    · obtain ⟨t, ht⟩ := ha.later_sort
      exact hop t ht
  · have hlast := (h.last_iff e).mp rfl
    exact ⟨_, hok, h.replace hnodup hsplit rfl he f,
      .inr ⟨e, hnext.neighbours_of_lastSort hlast, he⟩⟩

end SortsSettled

theorem Scoped.simplifySorts_settled (h : p.Scoped) :
    ∃ q last, p.simplifySorts = .ok q ∧ SortsSettled p p.order (q, last) := by
  have hloop : ∃ s, p.order.foldlM simplifySort (p, none) = .ok s ∧ SortsSettled p p.order s := by
    refine Result.foldlM_ok (.start h) fun done id rest s hsplit hs => ?_
    obtain ⟨t, hok, ht, -⟩ := hs.step h.nodup hsplit
    exact ⟨t, hok, ht⟩
  obtain ⟨⟨q, last⟩, hq, hsettled⟩ := hloop
  exact ⟨q, last, Result.bind_ok hq, hsettled⟩

/-- The pass leaves a plan alone in which no sort is sorted again by a neighbour. -/
theorem Scoped.simplifySorts_eq_self (h : p.Scoped)
    (hsettled : ∀ a b, p.Neighbours a b → ¬p.SortedAgain a b) : p.simplifySorts = .ok p := by
  have hloop : ∃ s, p.order.foldlM simplifySort (p, none) = .ok s ∧
      SortsSettled p p.order s ∧ s.1 = p := by
    refine Result.foldlM_ok (motive := fun done s => SortsSettled p done s ∧ s.1 = p)
      ⟨.start h, rfl⟩ ?_
    rintro done id rest ⟨r, last⟩ hsplit ⟨hs, rfl⟩
    obtain ⟨t, hok, ht, hsame | ⟨e, hneighbours, hagain⟩⟩ := hs.step h.nodup hsplit
    · exact ⟨t, hok, ht, hsame⟩
    · exact absurd hagain (hsettled e id hneighbours)
  obtain ⟨⟨q, last⟩, hq, -, rfl⟩ := hloop
  exact Result.bind_ok hq

/-- A second run finds nothing more. -/
theorem Scoped.simplifySorts_idempotent (h : p.Scoped) (hq : p.simplifySorts = .ok q) :
    q.simplifySorts = .ok q := by
  obtain ⟨q', last, hq', hs⟩ := h.simplifySorts_settled
  obtain rfl : q = q' := Except.ok.inj (hq.symm.trans hq')
  exact hs.inSight.simplifySorts_eq_self fun a b hab =>
    hs.settled a b (hs.sublist.subset (mem_right hab.1)) hab

/-- Taking out sorts succeeds, and nothing but plain sorts leaves. Afterwards no sort is sorted again
by another one if nothing but simple projections stands between them in the live order. -/
theorem sort_removal_settles_neighbours (h : p.Scoped) :
    ∃ q, p.simplifySorts = .ok q ∧ q.Scoped ∧ q.order <+ p.order ∧
      (∀ x ∈ p.order, x ∉ q.order → ∃ t, p.op x = .sort t ∧ t.isPlain = true) ∧
        ∀ earlier later, q.Neighbours earlier later → ¬q.SortedAgain earlier later := by
  obtain ⟨q, last, hq, hs⟩ := h.simplifySorts_settled
  refine ⟨q, hq, hs.inSight, hs.sublist, hs.gone, fun earlier later hab => ?_⟩
  exact hs.settled earlier later (hs.sublist.subset (mem_right hab.1)) hab

/-- Rows that are sorted by one column and then twice by the other one. -/
def threeSorts : Plan :=
  let sort (column : Nat) : Operator := .sort ⟨[⟨column, .ascending, .last⟩], none, 0, false⟩
  { arena := #[.make 0 [] (.values ⟨[⟨"a", .condition⟩, ⟨"b", .condition⟩],
        [[.bool true, .bool false], [.bool false, .bool true]]⟩),
      .make 1 [⟨0⟩] (sort 0),
      .make 2 [⟨1⟩] (sort 1),
      .make 3 [⟨2⟩] (.project (.plain [.column ⟨⟨2⟩, 1⟩, .column ⟨⟨2⟩, 0⟩] ["b", "a"])),
      .make 4 [⟨3⟩] (sort 0)]
    order := (range 5).map NodeId.mk }

/-- The sort in the middle leaves. The others become neighbours, but they differ in their keys. -/
theorem sort_removal_settles_neighbours_threeSorts : threeSorts.Scoped ∧
    ∃ q, threeSorts.simplifySorts = .ok q ∧ q.order = [⟨0⟩, ⟨1⟩, ⟨3⟩, ⟨4⟩] ∧
      q.Neighbours ⟨1⟩ ⟨4⟩ ∧ ¬q.SortedAgain ⟨1⟩ ⟨4⟩ := by
  have h : threeSorts.Scoped :=
    scoped_of_reads ⟨⟨by decide, by decide, by decide⟩, by decide⟩ (by decide +kernel)
  have hrun : threeSorts.simplifySorts.holds (fun q =>
      q.order == [⟨0⟩, ⟨1⟩, ⟨3⟩, ⟨4⟩] && decide (q.Neighbours ⟨1⟩ ⟨4⟩)) = true := by
    decide +kernel
  obtain ⟨q, hq, hrun⟩ := Result.holds_eq_true.mp hrun
  rw [Bool.and_eq_true, beq_iff_eq, decide_eq_true_eq] at hrun
  obtain ⟨q', hq', -, -, -, hsettled⟩ := sort_removal_settles_neighbours h
  obtain rfl : q = q' := Except.ok.inj (hq.symm.trans hq')
  exact ⟨h, q, hq, hrun.1, hrun.2, hsettled ⟨1⟩ ⟨4⟩ hrun.2⟩

/-- Rows that are sorted twice, paired with others that stand between both sorts. -/
def interleavedSorts : Plan :=
  let values (name : String) : Operator := .values ⟨[⟨name, .condition⟩], [[.bool true]]⟩
  let sort : Operator := .sort ⟨[⟨0, .ascending, .last⟩], none, 0, false⟩
  { arena := #[.make 0 [] (values "a"),
      .make 1 [⟨0⟩] sort,
      .make 2 [] (values "x"),
      .make 3 [⟨1⟩] sort,
      .make 4 [⟨3⟩, ⟨2⟩] (.join ⟨.bool true, .inner⟩)]
    order := (range 5).map NodeId.mk }

/-- The same plan, with both sorts side by side. -/
def adjacentSorts : Plan :=
  { interleavedSorts with order := [⟨0⟩, ⟨1⟩, ⟨3⟩, ⟨2⟩, ⟨4⟩] }

/-- The first sort stays, although the second one sorts the same rows again. It leaves if the other
rows stand behind both. -/
theorem sort_removal_misses_interleavedSorts :
    interleavedSorts.Scoped ∧ [⟨1⟩, ⟨3⟩] <+ interleavedSorts.order ∧
      interleavedSorts.SortedAgain ⟨1⟩ ⟨3⟩ ∧
        interleavedSorts.simplifySorts = .ok interleavedSorts ∧
    adjacentSorts.Scoped ∧ ∃ q, adjacentSorts.simplifySorts = .ok q ∧
      q.order = [⟨0⟩, ⟨3⟩, ⟨2⟩, ⟨4⟩] := by
  have h : interleavedSorts.Scoped :=
    scoped_of_reads ⟨⟨by decide, by decide, by decide⟩, by decide⟩ (by decide +kernel)
  have hadjacent : adjacentSorts.Scoped :=
    scoped_of_reads ⟨⟨by decide, by decide, by decide⟩, by decide⟩ (by decide +kernel)
  have hagain : interleavedSorts.SortedAgain ⟨1⟩ ⟨3⟩ :=
    (h.arranged.toOrdered.isRedundantSort_iff (by decide)).mp rfl
  have hrun : adjacentSorts.simplifySorts.holds
      (fun q => q.order == [⟨0⟩, ⟨3⟩, ⟨2⟩, ⟨4⟩]) = true := by decide +kernel
  obtain ⟨q, hq, horder⟩ := Result.holds_eq_true.mp hrun
  exact ⟨h, by decide, hagain, rfl, hadjacent, q, hq, eq_of_beq horder⟩

end Plan

end QueryPlan
