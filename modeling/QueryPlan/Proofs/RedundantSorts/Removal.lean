import QueryPlan.Proofs.Plan.Renaming
import QueryPlan.Proofs.RedundantSorts.Step
import QueryPlan.Proofs.Scope.PassThrough
/-!
# QueryPlan.Proofs.RedundantSorts.Removal

**What one sort leaves behind.** A sort is sorted again if another one reads it through simple
projections and orders rows the same way (`Plan.SortedAgain`), which is what the pass looks for. When
such a sort is taken out, no other sort comes to be sorted again. In front of it everything stays as
it is (`Lowered.sortedAgain_before`). And what the later sort reads through the place that the sort
has left was read by the sort itself, so it was sorted again before
(`Lowered.sortedAgain_removed`), for columns that meet a common one meet each other.
-/

namespace QueryPlan

open List

theorem Operator.sort_of_mapExprs {f : Expr → Expr} {op : Operator} {s : Sorting}
    (h : op.mapExprs f = .sort s) : op = .sort s := by
  cases op <;> cases h
  rfl

namespace Plan

variable {p q r : Plan} {id input earlier later x y a b : NodeId} {c d : ColumnRef}
  {changed : List NodeId}

/-! ### Traces and walks that stay -/

theorem forwarded?_congr (h : q.node c.source = p.node c.source) :
    q.forwarded? c = p.forwarded? c := by
  unfold forwarded?
  rw [op_congr h, inputs_congr h]

/-- A renamed node forwards the same columns under their new handles. -/
theorem forwarded?_of_renamed {σ : NodeId → NodeId}
    (h : q.node c.source = (p.node c.source).renamed σ) :
    q.forwarded? c = (p.forwarded? c).map (ColumnRef.renamed σ) := by
  have hinputs : q.inputs c.source = (p.inputs c.source).map σ := congrArg Node.inputs h
  have hop : q.op c.source = (p.op c.source).mapExprs (Expr.mapColumns (ColumnRef.renamed σ)) :=
    congrArg Node.op h
  unfold forwarded?
  rw [hinputs, hop]
  match p.inputs c.source with
  | [] => rfl
  | [i] =>
      cases hproject : p.op c.source with
      | project j =>
          dsimp only [Operator.mapExprs]
          rw [getElem?_map]
          cases j.exprs[c.index]? with
          | none => rfl
          | some e =>
              cases e with
              | leaf l => cases l <;> rfl
              | app head args =>
                  rw [Option.map_some, Expr.mapColumns_app]
                  rfl
      | aggregate g =>
          change (if c.index < g.groupCount then _ else _) = Option.map _ (if _ then _ else _)
          split <;> rfl
      | _ => rfl
  | _ :: _ :: _ => rfl

section Before

variable (h : p.Scoped) (hsame : ∀ x, [x, id] <+ p.order → q.node x = p.node x)
include h hsame

/-- A trace stays if everything in front of a node does. -/
theorem tracesTo_before (hc : [c.source, id] <+ p.order) (htrace : q.TracesTo c d) :
    p.TracesTo c d := by
  induction htrace using Relation.ReflTransGen.head_induction_on with
  | refl => exact .refl
  | @head c e hstep _ ih =>
      rw [forwarded?_congr (hsame _ hc)] at hstep
      have hbefore := h.forwarded_before (mem_left hc) hstep
      exact .head hstep (ih (pair_sublist_trans h.nodup hbefore hc))

/-- So does a walk through simple projections. -/
theorem through_before (hx : [x, id] <+ p.order) (hthrough : q.Through x y) : p.Through x y := by
  induction hthrough using Relation.ReflTransGen.head_induction_on with
  | refl => exact .refl
  | @head x z hrelays _ ih =>
      have hnode := hsame x hx
      have hrelays : p.Relays x z := by
        rw [Relays, isSimpleProject, op_congr hnode, inputs_congr hnode] at hrelays
        exact hrelays
      have hbefore := h.arranged.before x (mem_left hx) z (hrelays.2 ▸ mem_singleton_self z)
      exact .head hrelays (ih (pair_sublist_trans h.nodup hbefore hx))

end Before

/-! ### Taking a node out -/

theorem NodeId.count_replaced {old new i : NodeId} (hi : i ≠ old) (ids : List NodeId) :
    (ids.map (old.replaced new)).count i = ids.count i + if i = new then ids.count old else 0 := by
  induction ids with
  | nil => simp
  | cons k ids ih =>
      rw [map_cons, count_cons, count_cons, count_cons, ih]
      by_cases hk : k = old
      · subst hk
        rw [NodeId.replaced_self]
        have hne : (k == i) = false := by simpa using hi.symm
        by_cases hnew : i = new
        · subst hnew
          simp [hne]
          omega
        · have hnew' : (new == i) = false := by simpa using Ne.symm hnew
          simp [hnew, hnew', hne]
      · have hne : (k == old) = false := by simpa using hk
        rw [NodeId.replaced_of_ne _ hk]
        simp [hne]
        omega

namespace Lowered

variable (f : Lowered p r id input changed)
include f

theorem node_before (hx : [x, id] <+ p.order) : (r.remove id).node x = p.node x := by
  have h := f.inSight
  refine f.node_unseen (mem_left hx) (fun hread => ?_) fun hsee => ?_
  · exact not_pair_swap h.nodup hx (h.arranged.before x (mem_left hx) id hread)
  · exact not_pair_swap h.nodup hx (h.reads_before (mem_left hx) hsee)

/-- Over an input that does not join, readers just read that input. -/
theorem node_eq_renamed (hjoin : (p.op input).isJoin = false) (hx : x ∈ p.order) :
    r.node x = (p.node x).renamed (id.replaced input) := by
  rw [f.node_eq_reread hx]
  refine Node.reread_congr (fun _ _ => rfl) fun c hc => ?_
  by_cases halone : p.ReadsAlone x id
  · obtain ⟨hsource, hget⟩ := f.getElem?_repositioned hx halone hc
    rw [exposed_of_not_join hjoin, columnsOf, flatMap_singleton, ColumnRef.getElem?_range] at hget
    rw [ColumnRef.renamed, hsource, NodeId.replaced_self]
    exact hget.2
  · exact repositioned_of_map (f.columnsOf_not_alone hx halone hc) (f.inSight.mem_columnsOf hx hc)

/-- What is read once by others is read once by what reads its input instead. -/
theorem useCount_remove (hsole : p.useCount id = 1) (hx : x ≠ id) :
    (r.remove id).useCount x = p.useCount x := by
  have hrest : (r.remove id).order = p.order.erase id := by
    rw [order_remove, f.order_eq, f.inSight.nodup.erase_eq_filter]
  have huses : ∀ n ∈ p.order.erase id, (r.node n).uses x =
      (p.node n).uses x + if x = input then (p.node n).uses id else 0 := fun n hn => by
    have hinputs := f.inputs_lowered (mem_of_mem_erase hn)
    change (r.inputs n).count x = (p.inputs n).count x + if _ then (p.inputs n).count id else 0
    rw [hinputs, NodeId.count_replaced hx]
  have hself : ∀ y, (p.node id).uses y = if input = y then 1 else 0 := fun y => by
    change (p.inputs id).count y = _
    rw [f.inputs_id, count_singleton]
    simp
  rw [useCount, ← sum_map_erase _ f.live, hself, if_neg f.input_ne, Nat.zero_add] at hsole
  rw [useCount, useCount, hrest, ← sum_map_erase _ f.live, hself]
  change ((p.order.erase id).map fun n => (r.node n).uses x).sum = _
  rw [map_congr_left huses]
  by_cases hinput : x = input
  · simp only [hinput, if_true, sum_map_add]
    rw [hsole, Nat.add_comm]
  · simp only [hinput, Ne.symm hinput, if_false, Nat.add_zero, Nat.zero_add]

/-- In front of the node, sorts are sorted again that were. -/
theorem sortedAgain_before (hsole : p.useCount id = 1) (hb : [b, id] <+ p.order)
    (hagain : (r.remove id).SortedAgain a b) : p.SortedAgain a b := by
  have h := f.inSight
  have hsame : ∀ x, [x, id] <+ p.order → (r.remove id).node x = p.node x := fun _ => f.node_before
  have hlive : ∀ {x}, [x, id] <+ p.order → x ∈ (r.remove id).order := fun hx =>
    mem_order_remove.mpr ⟨f.order_eq ▸ mem_left hx, ne_of_pair h.nodup hx⟩
  obtain ⟨first, hfirst, hthrough⟩ := hagain.through
  rw [inputs_congr (hsame b hb)] at hfirst
  have hfirstBefore := pair_sublist_trans h.nodup
    (h.arranged.before b (mem_left hb) first (hfirst ▸ mem_singleton_self first)) hb
  have hthrough := through_before h hsame hfirstBefore hthrough
  have ha : [a, id] <+ p.order := by
    rcases h.arranged.toOrdered.eq_or_before_of_through (mem_left hfirstBefore) hthrough with
      rfl | hpair
    · exact hfirstBefore
    · exact pair_sublist_trans h.nodup hpair hfirstBefore
  refine ⟨op_congr (hsame a ha) ▸ hagain.plain, ?_, ⟨first, hfirst, hthrough⟩, ?_⟩
  · rw [← f.useCount_remove hsole (ne_of_pair h.nodup ha)]
    exact hagain.sole
  · obtain ⟨s, t, hs, ht, hkeys⟩ :=
      (f.scoped_remove.sameCollation_iff (hlive ha) (hlive hb)).mp hagain.agree
    refine (h.sameCollation_iff (mem_left ha) (mem_left hb)).mpr
      ⟨s, t, op_congr (hsame a ha) ▸ hs, op_congr (hsame b hb) ▸ ht, hkeys.imp ?_⟩
    rintro k l ⟨hdirection, hnulls, c, hk, hl⟩
    exact ⟨hdirection, hnulls, c, tracesTo_before h hsame ha hk, tracesTo_before h hsame hb hl⟩

/-- Traces over the place that a sort has left led over the sort. -/
theorem tracesTo_remove {s : Sorting} (hop : p.op id = .sort s)
    (hjoin : (p.op input).isJoin = false) (hc : c.source ∈ p.order)
    (htrace : (r.remove id).TracesTo c d) : p.TracesTo c d := by
  induction htrace using Relation.ReflTransGen.head_induction_on with
  | refl => exact .refl
  | @head c e hstep _ ih =>
      have hnode : (r.remove id).node c.source = (p.node c.source).renamed (id.replaced input) :=
        f.node_eq_renamed hjoin hc
      rw [forwarded?_of_renamed hnode, Option.map_eq_some_iff] at hstep
      obtain ⟨e', hstep, rfl⟩ := hstep
      have hbefore := f.inSight.forwarded_before hc hstep
      by_cases hsource : e'.source = id
      · -- The sort forwards the column to its input.
        have hforward : p.forwarded? e' = some (e'.renamed (id.replaced input)) := by
          obtain ⟨source, index⟩ := e'
          obtain rfl : source = id := hsource
          rw [ColumnRef.renamed, NodeId.replaced_self]
          exact forwarded?_of_filter_or_sort f.inputs_id (.inr ⟨s, hop⟩)
        refine .head hstep (.head hforward (ih ?_))
        rw [ColumnRef.renamed, hsource, NodeId.replaced_self]
        exact f.input_live
      · have hsame : e'.renamed (id.replaced input) = e' := by
          rw [ColumnRef.renamed, NodeId.replaced_of_ne _ hsource]
        rw [hsame] at ih
        exact .head hstep (ih (mem_left hbefore))

/-- A walk that led to the node leads to its input afterwards, and on from there. -/
theorem through_input (hsimple : p.isSimpleProject id = false) (hx : x ∈ p.order)
    (hthrough : p.Through x id) (ha : (r.remove id).isSimpleProject a = false)
    (hwalk : (r.remove id).Through (id.replaced input x) a) : (r.remove id).Through input a := by
  induction hthrough using Relation.ReflTransGen.head_induction_on with
  | refl => rwa [NodeId.replaced_self] at hwalk
  | @head x y hrelays _ ih =>
      have hne : x ≠ id := by
        rintro rfl
        rw [hrelays.1] at hsimple
        cases hsimple
      have hstays : (r.remove id).isSimpleProject x = true :=
        (f.isSimpleProject_eq hx).trans hrelays.1
      have hinputs : (r.remove id).inputs x = [id.replaced input y] := by
        change r.inputs x = _
        rw [f.inputs_lowered hx, hrelays.2, map_singleton]
      rw [NodeId.replaced_of_ne _ hne] at hwalk
      rcases Relation.ReflTransGen.cases_head hwalk with rfl | ⟨z, hz, hwalk⟩
      · rw [hstays] at ha
        cases ha
      · obtain rfl := singleton_inj.mp (hinputs.symm.trans hz.2)
        exact ih (f.inSight.arranged.mem_of_input hx (hrelays.2 ▸ mem_singleton_self y)) hwalk

/-- If a sort leaves that is sorted again by another one, and that one sorts a third one again
afterwards, then the third one was sorted again by the sort that has left. -/
theorem sortedAgain_removed (hlater : later ∈ p.order) (hagain : p.SortedAgain id later)
    (hafter : (r.remove id).SortedAgain a later) : p.SortedAgain a id := by
  have h := f.inSight
  have hsame : ∀ x, [x, id] <+ p.order → (r.remove id).node x = p.node x := fun _ => f.node_before
  obtain ⟨s, hs, -⟩ := hagain.plain
  obtain ⟨first, hfirst, hthrough⟩ := hagain.through
  obtain ⟨first', hfirst', hwalk⟩ := hafter.through
  have hinput := h.arranged.before id f.live input f.input_mem
  have hfirstLive := h.arranged.mem_of_input hlater (hfirst ▸ mem_singleton_self first)
  have hreplaced : first' = id.replaced input first := by
    change r.inputs later = _ at hfirst'
    rw [f.inputs_lowered hlater, hfirst, map_singleton] at hfirst'
    exact (singleton_inj.mp hfirst').symm
  have hwalk : p.Through input a := through_before h hsame hinput
    (f.through_input hagain.not_simple hfirstLive hthrough hafter.not_simple (hreplaced ▸ hwalk))
  have ha : [a, id] <+ p.order := by
    rcases h.arranged.toOrdered.eq_or_before_of_through f.input_live hwalk with rfl | hpair
    · exact hinput
    · exact pair_sublist_trans h.nodup hpair hinput
  have hjoin : (p.op input).isJoin = false := by
    rcases Relation.ReflTransGen.cases_head hwalk with rfl | ⟨y, hrelays, -⟩
    · obtain ⟨t, ht, -⟩ := hafter.plain
      rw [← op_congr (hsame _ ha), ht]
      rfl
    · obtain ⟨j, hop, -⟩ := project_of_isSimpleProject hrelays.1
      rw [hop]
      rfl
  have hlaterNe := (ne_of_pair h.nodup (hagain.before h.arranged.toOrdered hlater)).symm
  refine ⟨op_congr (hsame a ha) ▸ hafter.plain, ?_, ⟨input, f.inputs_id, hwalk⟩, ?_⟩
  · rw [← f.useCount_remove hagain.sole (ne_of_pair h.nodup ha)]
    exact hafter.sole
  · -- The keys of both sorts meet those of the later one.
    have hlive : ∀ {x}, x ∈ p.order → x ≠ id → x ∈ (r.remove id).order := fun hx hne =>
      mem_order_remove.mpr ⟨f.order_eq ▸ hx, hne⟩
    obtain ⟨u, t, hu, ht, hkeys⟩ := (f.scoped_remove.sameCollation_iff
      (hlive (mem_left ha) (ne_of_pair h.nodup ha)) (hlive hlater hlaterNe)).mp hafter.agree
    obtain ⟨s, t', hs, ht', hkeys'⟩ := (h.sameCollation_iff f.live hlater).mp hagain.agree
    have hsort : p.op later = .sort t := by
      change r.op later = _ at ht
      rw [f.op_lowered hlater] at ht
      exact Operator.sort_of_mapExprs ht
    obtain rfl := Operator.sort.inj (hsort.symm.trans ht')
    refine (h.sameCollation_iff (mem_left ha) f.live).mpr
      ⟨u, s, op_congr (hsame a ha) ▸ hu, hs, forall₂_of_common ?_ hkeys hkeys'⟩
    rintro k l m ⟨hdirection, hnulls, c, hk, hm⟩ ⟨hdirection', hnulls', hmeet⟩
    have hmeet' : p.Meet ⟨a, k.column⟩ ⟨later, m.column⟩ :=
      ⟨c, f.tracesTo_remove hs hjoin (mem_left ha) hk, f.tracesTo_remove hs hjoin hlater hm⟩
    exact ⟨hdirection.trans hdirection'.symm, hnulls.trans hnulls'.symm,
      p.meet_equivalence.trans hmeet' (p.meet_equivalence.symm hmeet)⟩

end Lowered

end Plan

end QueryPlan
