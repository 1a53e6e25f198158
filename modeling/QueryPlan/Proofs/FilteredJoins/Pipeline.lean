import QueryPlan.Pass.Pipeline
import QueryPlan.Proofs.FilteredJoins.Kept
import QueryPlan.Proofs.Marks.Fusion
/-!
# QueryPlan.Proofs.FilteredJoins.Pipeline

**Join conditions in filters are found twice, and it is the same filters both times.** The pipeline
looks for the filters over inner joins before it fuses anything, and the flattening of joins looks
for them again. In between no such filter is lost and none appears (`Plan.filteredJoins`): dead
columns and window functions concern projections only, and fusing takes in no filter that was found.

Conditions are hoisted out of filters over inner joins only if there is no such filter. So hoisting
changes nothing (`hoistConditions_eq_self`), and the pipeline does what it does without
(`Plan.optimizeUnhoisted`).
-/

namespace QueryPlan

open List

namespace Plan

variable {p q r : Plan} {id : NodeId} {joinRoots : List NodeId} {next next' : Nat}

/-! ### Hoisting -/

/-- Conditions are hoisted out of filters over inner joins only. -/
theorem hoistCondition_eq_self (hnone : p.filteredJoin? id = none)
    (h : p.hoistCondition id = .ok q) : q = p := by
  rcases hoistCondition_cases h with rfl | ⟨f, joinId, j, condition, hop, hinputs, hjoin, hkind, -⟩
  · rfl
  · have hfound : p.filteredJoin? id = some joinId :=
      filteredJoin?_eq_some.mpr ⟨hinputs, isFilter_iff.mpr ⟨f, hop⟩,
        by simp [isInnerJoin, hjoin, hkind]⟩
    rw [hnone] at hfound
    cases hfound

theorem hoistConditions_eq_self (hnone : p.filteredJoins = []) (h : p.hoistConditions = .ok q) :
    q = p := by
  refine Result.foldlM_keeps (motive := fun r => r = p) h rfl fun id hid r r' hr hstep => ?_
  subst hr
  refine hoistCondition_eq_self (Option.eq_none_iff_forall_ne_some.mpr fun join hjoin => ?_) hstep
  have hmem := mem_filteredJoins.mpr ⟨hid, hjoin⟩
  rw [hnone] at hmem
  exact not_mem_nil hmem

/-- The passes between the discovery of the tops of join chains and the check of the root, without
the hoisting of conditions. -/
def laterPasses (settings : Settings) (p : Plan) : List Pass :=
  [.eliminateDeadColumns, .separateWindows] ++
    (if settings.clusterMode then [.narrowWindows] else []) ++
    [.fuseChains p.joinRoots]

/-- All passes, without the hoisting of conditions. -/
def optimizeUnhoisted (settings : Settings) (p : Plan) : Fresh Plan := do
  let p ← p.applyPasses [.markNops, .simplifySorts, .eliminateCopies, .foldFilters]
  let p ← p.applyPasses (p.laterPasses settings)
  p.checkRoot
  p.applyPasses [.flattenJoins]

theorem middlePasses_eq (settings : Settings) (p : Plan) :
    p.middlePasses settings =
      (if p.joinRoots.any p.isFilter then [] else [.hoistConditions]) ++
        p.laterPasses settings := by
  simp [middlePasses, laterPasses]

/-- Conditions are hoisted only if no filter stands on an inner join. -/
theorem hoistConditions_mem_middlePasses {settings : Settings} :
    .hoistConditions ∈ p.middlePasses settings ↔ p.filteredJoins = [] := by
  have hany : p.joinRoots.any p.isFilter = false ↔ p.filteredJoins = [] := by
    rw [any_eq_false, ← map_eq_nil_iff (f := Prod.fst), ← filter_joinRoots, filter_eq_nil_iff]
  rw [middlePasses_eq, ← hany]
  cases p.joinRoots.any p.isFilter <;> simp [laterPasses]

/-- Where conditions are hoisted, this changes nothing. -/
theorem applyPasses_middlePasses {settings : Settings}
    (h : p.applyPasses (p.middlePasses settings) next = .ok (q, next')) :
    p.applyPasses (p.laterPasses settings) next = .ok (q, next') := by
  rw [middlePasses_eq] at h
  split at h
  · exact h
  · next hany =>
    obtain ⟨r, n, hr, h⟩ := Fresh.bind_eq_ok.mp h
    obtain ⟨hhoist, rfl⟩ := Fresh.lift_eq_ok.mp hr
    have hnone : p.filteredJoins = [] := by
      rw [← map_eq_nil_iff (f := Prod.fst), ← filter_joinRoots, filter_eq_nil_iff]
      simpa using hany
    exact hoistConditions_eq_self hnone hhoist ▸ h

namespace KeepsJoins

/-! ### Passes over projections -/

theorem remapWithin {fuel oldWidth : Nat} {mapping : ColumnMap}
    (h : Plan.remapWithin fuel p id mapping oldWidth = .ok q) : KeepsJoins p q := by
  induction fuel generalizing p q id mapping oldWidth with
  | zero => cases h
  | succ fuel ih =>
      obtain ⟨r, hr, h⟩ := Result.bind_eq_ok.mp h
      have hself : KeepsJoins p r := .foldlM hr fun _ _ _ _ hstep => .replaceInput hstep (.inl rfl)
      refine hself.trans (.foldlM h fun s a t _ hstep => ?_)
      split at hstep
      · exact ih hstep
      · exact ih hstep
      · obtain ⟨m, -, hstep⟩ := Result.bind_eq_ok.mp hstep
        exact ih hstep
      · exact Result.pure_eq_ok.mp hstep ▸ .refl s

theorem dropDeadColumns {root : Option NodeId} (h : p.dropDeadColumns root id = .ok q) :
    KeepsJoins p q := by
  unfold Plan.dropDeadColumns at h
  split at h
  · next j hop =>
    dsimp only at h
    split at h
    · exact Except.ok.inj h ▸ .refl p
    · obtain ⟨used, -, h⟩ := Result.bind_eq_ok.mp h
      split at h
      · exact Result.pure_eq_ok.mp h ▸ .refl p
      · split at h
        · exact Result.pure_eq_ok.mp h ▸ .refl p
        · exact .trans (.setOp (by rw [hop]; rfl)) (remapWithin h)
  · exact Except.ok.inj h ▸ .refl p

theorem separateWindow (h : p.separateWindow id next = .ok (q, next')) : KeepsJoins p q := by
  rcases separateWindow_cases h with rfl | ⟨j, buildId, r, hop, hr, hq⟩
  · exact .refl q
  · have hset : KeepsJoins p (p.setOp id (.project (p.lowerHalf id j))) :=
      .setOp (by rw [hop]; rfl)
    obtain ⟨pre, post, horder, rfl⟩ := insertAfter_eq_ok hr
    rw [append_cons] at horder hq
    have hrole : (p.op id).joinRole = .other := by rw [hop]; rfl
    have hinsert := hset.trans (.insert (.make buildId [id]
      (.project (.plain (splitUpper id j.exprs).1 j.fields))) rfl (fun i hi hinner => by
        rw [mem_singleton.mp hi, isInnerJoin_iff_joinRole, hset.role_eq, hrole] at hinner
        cases hinner) horder)
    refine hinsert.trans (.replaceInputEverywhere hq ?_ ?_)
    · rw [hinsert.isBinaryJoin_eq, isBinaryJoin, hop]
    · rw [hinsert.isBinaryJoin_eq, isBinaryJoin_nextId]

theorem narrowWindow (h : p.narrowWindow id next = .ok (q, next')) : KeepsJoins p q := by
  rcases narrowWindow_cases h with rfl | ⟨j, input, buildId, r, hop, hinput, -, hr, hq⟩
  · exact .refl q
  · obtain ⟨pre, post, horder, rfl⟩ := insertBefore_eq_ok hr
    have hnone : p.filteredJoin? id = none := by
      simp [filteredJoin?, hinput, isFilter, hop]
    have hinsert : KeepsJoins p { p.alloc (narrowing buildId input
        (positionsRead input j.exprs)) with order := pre ++ p.nextId :: id :: post } :=
      .insert _ rfl (fun i hi _ => ⟨id, by simp [horder], hinput ▸ hi, hnone⟩) horder
    refine hinsert.trans (.replaceInput hq (.inr ⟨?_, .inl ?_⟩))
    · rw [hinsert.isBinaryJoin_eq, isBinaryJoin_nextId]
    · rw [hinsert.role_eq, hop]
      simp [Operator.joinRole]

end KeepsJoins

/-! ### Fusing chains -/

/-- What a chain is made of: projections, aggregates, and filters that head no chain of joins. -/
theorem Chained.joinRole {ids : List NodeId} {stage : ChainStage}
    (h : p.Chained joinRoots ids stage) :
    ∀ x ∈ ids, (p.op x).joinRole = .other ∨ (p.op x).joinRole = .filter ∧ x ∉ joinRoots := by
  have hconcat : ∀ {ids : List NodeId} {id : NodeId},
      (∀ x ∈ ids, (p.op x).joinRole = .other ∨ (p.op x).joinRole = .filter ∧ x ∉ joinRoots) →
      ((p.op id).joinRole = .other ∨ (p.op id).joinRole = .filter ∧ id ∉ joinRoots) →
      ∀ x ∈ ids ++ [id],
        (p.op x).joinRole = .other ∨ (p.op x).joinRole = .filter ∧ x ∉ joinRoots := by
    intro ids id hids hid x hx
    rcases mem_append.mp hx with hx | hx
    · exact hids x hx
    · rwa [mem_singleton.mp hx]
  induction h with
  | nil => exact fun _ hx => absurd hx not_mem_nil
  | @next ids id stage next _ _ _ hnext ih =>
      refine hconcat ih ?_
      rcases nextStage?_eq_some hnext with ⟨rfl, -, f, hop⟩ | ⟨-, -, j, hop⟩ | ⟨-, -, j, hop⟩ |
        ⟨-, -, a, hop⟩
      · refine .inr ⟨by rw [hop]; rfl, ?_⟩
        simp only [nextStage?, hop] at hnext
        simpa using (Option.ite_none_left_eq_some.mp hnext).1
      all_goals exact .inl (by rw [hop]; rfl)
  | close _ _ _ hend _ ih =>
      obtain ⟨j, hop⟩ := endsChain_eq_true hend
      exact hconcat ih (.inl (by rw [hop]; rfl))

/-- A compound takes the place of a chain without filters over inner joins. -/
theorem Ordered.replaceChain_keepsJoins {ids : List NodeId} {stage : ChainStage}
    {first last : NodeId} (h : p.Ordered p.order) (hchain : p.Chained joinRoots ids stage)
    (hfirst : ids.head? = some first) (hlast : ids.getLast? = some last)
    (hids : ∀ x ∈ ids, p.isWatched x ≠ true)
    (hq : p.replaceChain ids first last next = .ok (q, next')) : KeepsJoins p q := by
  obtain ⟨f, input, buildId, pre, post, -, hinput, horder, hq⟩ := replaceChain_eq_ok hq
  have hnone : p.filteredJoin? first = none := by
    have hunwatched := hids first (mem_of_head? hfirst)
    by_contra hsome
    exact hunwatched (by simp [isWatched, Option.isSome_iff_ne_none.mpr hsome])
  rw [append_cons] at horder
  have hinsert : KeepsJoins p { p.alloc (.make buildId [input] (.compound f.compound)) with
      order := (pre ++ [last]) ++ p.nextId :: post } :=
    .insert _ rfl (fun i hi _ => ⟨first, hchain.subset (mem_of_head? hfirst), hinput ▸ hi, hnone⟩)
      horder
  rw [append_assoc, singleton_append] at horder hinsert
  have hgone := hinsert.trans (.of_filter (f := fun n => !ids.contains n)
    (q := { p.alloc (.make buildId [input] (.compound f.compound)) with
      order := p.withoutChain ids pre post })
    rfl (hchain.withoutChain_eq h hlast horder) fun x _ hx => ?_)
  · refine hgone.trans (.replaceInputEverywhere hq ?_ ?_)
    · rw [hgone.isBinaryJoin_eq, isBinaryJoin_eq_false_iff]
      intro kind
      rcases hchain.joinRole last (mem_of_getLast? hlast) with hrole | ⟨hrole, -⟩ <;>
        simp [hrole]
    · rw [hgone.isBinaryJoin_eq, isBinaryJoin_nextId]
  · rw [hinsert.isWatched_eq] at hx
    simp only [Bool.not_eq_true', ← Bool.not_eq_true, contains_iff_mem]
    exact fun hmem => hids x hmem hx

/-- Fusing chains takes in no filter over an inner join, if all of these head chains of joins. -/
theorem Ordered.fuseChains_keepsJoins (h : p.Ordered p.order)
    (hroots : ∀ x ∈ p.filteredJoins, x.1 ∈ joinRoots)
    (hq : p.fuseChains joinRoots next = .ok (q, next')) : KeepsJoins p q := by
  refine h.fuseChains_keeps (motive := KeepsJoins p) (.refl p) ?_ hq
  intro r s ids stage first last n n' hr hkeeps hchain hfirst hlast hs
  refine hkeeps.trans (hr.replaceChain_keepsJoins hchain hfirst hlast (fun x hx hwatched => ?_) hs)
  have hlive := (hkeeps.mem_order_iff (hkeeps.isWatched_eq ▸ hwatched)).mp (hchain.subset hx)
  rw [isWatched, Bool.or_eq_true] at hwatched
  rcases hwatched with hjoin | hfiltered
  · obtain ⟨kind, hkind⟩ := isBinaryJoin_iff_joinRole.mp hjoin
    rcases hchain.joinRole x hx with hrole | ⟨hrole, -⟩ <;> rw [hrole] at hkind <;> cases hkind
  · obtain ⟨join, hjoin⟩ := Option.isSome_iff_exists.mp hfiltered
    have hfilter := isFilter_iff_joinRole.mp (filteredJoin?_eq_some.mp hjoin).2.1
    rw [hkeeps.filteredJoin?_eq] at hjoin
    rcases hchain.joinRole x hx with hrole | ⟨-, hroot⟩
    · rw [hrole] at hfilter
      cases hfilter
    · exact hroot (hroots _ (mem_filteredJoins.mpr ⟨hlive, hjoin⟩))

/-! ### The pipeline -/

/-- Every pass between the discovery of the tops of join chains and the check of the root leaves the
filters over inner joins as they are. -/
theorem Ordered.middlePass_keepsJoins {settings : Settings} {pass : Pass}
    (hpass : pass ∈ p.middlePasses settings) (hr : r.Ordered r.order) (hkeeps : KeepsJoins p r)
    (h : pass.apply r next = .ok (q, next')) : KeepsJoins r q := by
  have hlater : pass = .hoistConditions ∨ pass = .eliminateDeadColumns ∨ pass = .separateWindows ∨
      pass = .narrowWindows ∨ pass = .fuseChains p.joinRoots := by
    simp only [middlePasses_eq, laterPasses, mem_append, mem_ite_nil_left, mem_ite_nil_right,
      mem_cons, not_mem_nil] at hpass
    tauto
  rcases hlater with rfl | rfl | rfl | rfl | rfl
  · have hnone : r.filteredJoins = [] :=
      hkeeps.filteredJoins_eq.trans (hoistConditions_mem_middlePasses.mp hpass)
    rw [hoistConditions_eq_self hnone (Fresh.lift_eq_ok.mp h).1]
    exact .refl r
  · exact .foldlM (Fresh.lift_eq_ok.mp h).1 fun _ _ _ _ hstep => .dropDeadColumns hstep
  · exact .foldlM_fresh h fun _ _ _ _ _ _ hstep => .separateWindow hstep
  · exact .foldlM_fresh h fun _ _ _ _ _ _ hstep => .narrowWindow hstep
  · refine hr.fuseChains_keepsJoins (fun x hx => ?_) h
    rw [hkeeps.filteredJoins_eq] at hx
    have hmem := mem_map_of_mem (f := Prod.fst) hx
    rw [← filter_joinRoots] at hmem
    exact (mem_filter.mp hmem).1

/-- The passes in between leave the filters over inner joins as they are, however many of them have
run. -/
theorem Ordered.middlePasses_keepJoins {settings : Settings} {passes : List Pass}
    (hp : p.Ordered p.order) (hpasses : passes ⊆ p.middlePasses settings)
    (h : p.applyPasses passes next = .ok (q, next')) : KeepsJoins p q :=
  (Fresh.foldlM_keeps (motive := fun r => r.Ordered r.order ∧ KeepsJoins p r) h ⟨hp, .refl p⟩
    fun _ hpass _ _ _ _ ⟨hr, hkeeps⟩ hstep => ⟨Pass.ordered hr hstep,
      hkeeps.trans (hr.middlePass_keepsJoins (hpasses hpass) hkeeps hstep)⟩).2

/-- **Join conditions in filters.** Optimizing does what it does without the hoisting of conditions,
which changes nothing where it runs. The filters over inner joins are the same, each over the same
join, after every pass between the search for the tops of join chains and the flattening of joins,
and both searches find them all. -/
theorem filtered_joins_kept {settings : Settings} (h : p.Ordered p.order)
    (hq : p.optimize settings next = .ok (q, next')) :
    p.optimizeUnhoisted settings next = .ok (q, next') ∧
      ∃ collected n before n',
        p.applyPasses [.markNops, .simplifySorts, .eliminateCopies, .foldFilters] next =
          .ok (collected, n) ∧
        collected.applyPasses (collected.middlePasses settings) n = .ok (before, n') ∧
        before.applyPasses [.flattenJoins] n' = .ok (q, next') ∧
        (.hoistConditions ∈ collected.middlePasses settings →
          collected.hoistConditions = .ok collected) ∧
        (∀ passes r m, passes <+: collected.middlePasses settings →
          collected.applyPasses passes n = .ok (r, m) →
            r.filteredJoins = collected.filteredJoins ∧
              ∀ x ∈ collected.filteredJoins, x.1 ∈ r.order ∧ x.2 ∈ r.order) ∧
        collected.joinRoots.filter collected.isFilter = collected.filteredJoins.map Prod.fst ∧
        before.joinRoots.filter before.isFilter = collected.filteredJoins.map Prod.fst := by
  obtain ⟨collected, n, hcollected, hq⟩ := Fresh.bind_eq_ok.mp hq
  obtain ⟨before, n', hbefore, hq⟩ := Fresh.bind_eq_ok.mp hq
  obtain ⟨_, m, hroot, hq⟩ := Fresh.bind_eq_ok.mp hq
  obtain ⟨hchecked, rfl⟩ := Fresh.lift_eq_ok.mp hroot
  have hordered := h.applyPasses hcollected
  have hkept : ∀ passes r m, passes <+: collected.middlePasses settings →
      collected.applyPasses passes n = .ok (r, m) →
        r.Ordered r.order ∧ r.filteredJoins = collected.filteredJoins := fun _ _ _ hprefix hr =>
    ⟨hordered.applyPasses hr,
      (hordered.middlePasses_keepJoins hprefix.subset hr).filteredJoins_eq⟩
  refine ⟨?_, collected, n, before, n', hcollected, hbefore, hq, fun hmem => ?_,
    fun passes r m hprefix hr => ?_, collected.filter_joinRoots, ?_⟩
  · exact Fresh.bind_eq_ok.mpr ⟨collected, n, hcollected, Fresh.bind_eq_ok.mpr
      ⟨before, n', applyPasses_middlePasses hbefore, Fresh.bind_eq_ok.mpr ⟨_, n', hroot, hq⟩⟩⟩
  · have hnone := hoistConditions_mem_middlePasses.mp hmem
    have hany : collected.joinRoots.any collected.isFilter = false := by
      rw [any_eq_false, ← filter_eq_nil_iff, filter_joinRoots, hnone]
      rfl
    rw [middlePasses_eq, hany] at hbefore
    obtain ⟨r, m, hr, -⟩ := Fresh.bind_eq_ok.mp hbefore
    obtain ⟨hhoist, -⟩ := Fresh.lift_eq_ok.mp hr
    exact hoistConditions_eq_self hnone hhoist ▸ hhoist
  · obtain ⟨hr, heq⟩ := hkept passes r m hprefix hr
    refine ⟨heq, fun ⟨id, join⟩ hx => ?_⟩
    rw [← heq] at hx
    obtain ⟨hid, hjoin⟩ := mem_filteredJoins.mp hx
    have hinputs := (filteredJoin?_eq_some.mp hjoin).1
    exact ⟨hid, hr.mem_of_input hid (hinputs ▸ mem_singleton_self join)⟩
  · rw [before.filter_joinRoots, (hkept _ _ _ (prefix_refl _) hbefore).2]

/-- A filter over an inner join. Above it stand a projection that computes with a window function,
another filter and a projection. -/
def rankedJoin : Plan :=
  let values (name : String) : Operator := .values ⟨[⟨name, .condition⟩], [[.bool true]]⟩
  let rank : Expr := .app (.window { (default : WindowCall) with kind := .rank }) []
  { arena := #[.make 0 [] (values "a"), .make 1 [] (values "b"),
      .make 2 [⟨0⟩, ⟨1⟩] (.join ⟨.bool true, .inner⟩),
      .make 3 [⟨2⟩] (.filter ⟨.column ⟨⟨0⟩, 0⟩⟩),
      .make 4 [⟨3⟩] (.project (.plain
        [.app (.operator .plus .condition) [rank, .column ⟨⟨1⟩, 0⟩]] ["c"])),
      .make 5 [⟨4⟩] (.filter ⟨.column ⟨⟨4⟩, 0⟩⟩),
      .make 6 [⟨5⟩] (.project (.plain [.column ⟨⟨5⟩, 0⟩] ["d"]))]
    order := (range 7).map NodeId.mk }

/-- The filter over the join is left for the flattening of joins, while the other filter goes into a
compound. -/
theorem filtered_joins_kept_rankedJoin :
    ∃ (q collected before : Plan) (n n' : Nat), rankedJoin.Ordered rankedJoin.order ∧
      rankedJoin.optimize .standard 7 = .ok (q, 10) ∧
      rankedJoin.optimizeUnhoisted .standard 7 = .ok (q, 10) ∧
      collected.applyPasses (collected.middlePasses .standard) n = .ok (before, n') ∧
      collected.filteredJoins = [(⟨3⟩, ⟨2⟩)] ∧ before.filteredJoins = [(⟨3⟩, ⟨2⟩)] ∧
      q.order.map NodeId.index = [0, 1, 9, 4, 7, 8] := by
  have hordered : rankedJoin.Ordered rankedJoin.order := ⟨by decide, by decide, by decide⟩
  have hrun : (rankedJoin.optimize .standard 7).holds
      (fun s => s.2 == 10 && s.1.order.map NodeId.index == [0, 1, 9, 4, 7, 8]) = true := by
    decide +kernel
  have hsearch : (rankedJoin.applyPasses [.markNops, .simplifySorts, .eliminateCopies,
      .foldFilters] 7).holds (fun s => s.1.filteredJoins == [(⟨3⟩, ⟨2⟩)]) = true := by
    decide +kernel
  obtain ⟨⟨q, m⟩, hq, hresult⟩ := Result.holds_eq_true.mp hrun
  simp only [Bool.and_eq_true, beq_iff_eq] at hresult
  obtain ⟨rfl, horder⟩ := hresult
  obtain ⟨hunhoisted, collected, n, before, n', hcollected, hbefore, -, -, hkept, -⟩ :=
    filtered_joins_kept hordered hq
  rw [hcollected] at hsearch
  have hfound : collected.filteredJoins = [(⟨3⟩, ⟨2⟩)] := eq_of_beq hsearch
  exact ⟨q, collected, before, n, n', hordered, hq, hunhoisted, hbefore, hfound,
    (hkept _ _ _ (prefix_refl _) hbefore).1.trans hfound, horder⟩

end Plan

end QueryPlan
