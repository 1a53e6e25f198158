import QueryPlan.Pass.Pipeline
import QueryPlan.Proofs.Flattening.Inputs
import QueryPlan.Proofs.Marks.View
import QueryPlan.Proofs.Scope.Removal
import QueryPlan.Proofs.Scope.Windows
/-!
# QueryPlan.Proofs.Marks.Passes

**What each pass leaves as it is.** All passes but three show the same in every view. Of these three,
the marking of groupings does so in a view that does not see the mark, and the separation of window
functions in one that sees no projection that is taken apart. What becomes of a chain of nodes is a
matter of its own.
-/

namespace QueryPlan

open List

variable {κ : Type} {v : View κ}

namespace Plan.Keeps

variable {p q : Plan} {id : NodeId} {next next' : Nat}

/-! ### Passes that take nodes out -/

theorem markNop (h : p.markNop id = .ok q)
    (hmark : ∀ a, v.see id (.aggregate { a with isNop := true }) = v.see id (.aggregate a)) :
    Keeps v p q := by
  rcases markNop_cases h with rfl | ⟨a, hop, rfl⟩
  · exact .refl v q
  · exact .setOp (by rw [hop, hmark])

theorem simplifySorts (h : p.simplifySorts = .ok q) : Keeps v p q := by
  obtain ⟨s, hs, h⟩ := Result.bind_eq_ok.mp h
  obtain rfl := Result.pure_eq_ok.mp h
  refine Result.foldlM_keeps (motive := fun s => Keeps v p s.1) hs (.refl v p) ?_
  rintro id - ⟨r, earlier⟩ ⟨r', later⟩ hr hstep
  rcases simplifySort_cases hstep with ⟨rfl, -⟩ | ⟨e, -, hredundant, hbypass, -⟩
  · exact hr
  · obtain ⟨s, hop, -⟩ := isRedundantSort_eq_ok_true hredundant
    exact hr.trans (.bypass hbypass (by rw [hop, v.see_plain _ _ rfl]))

theorem eliminateCopy {root : Option NodeId} (h : p.eliminateCopy root id = .ok q) :
    Keeps v p q := by
  rcases eliminateCopy_cases h with rfl | ⟨j, hop, -, hcopy, hbypass⟩
  · exact .refl v q
  · have htarget := (isIdenticalCopy_eq_ok_true hcopy).1
    refine .bypass hbypass ?_
    rw [hop, v.see_plain _ _ (by rw [Operator.isPlain, htarget]; rfl)]

theorem mergeCondition (p : Plan) (id : NodeId) (condition : Expr) :
    Keeps v p (p.mergeCondition id condition) := by
  unfold Plan.mergeCondition
  split
  · next f hop => exact .setOp (by rw [hop, v.see_plain _ _ rfl, v.see_plain _ _ rfl])
  · exact .refl v p

theorem foldFilter (h : p.foldFilter id = .ok q) : Keeps v p q := by
  rcases foldFilter_cases h with rfl | ⟨f, inner, g, input, r, -, -, hinner, -, -, hr, rfl⟩
  · exact .refl v q
  · have hsee : v.see inner (p.op inner) = none := by rw [hinner, v.see_plain _ _ rfl]
    exact ((replaceInput hr (.inr (.inl hsee))).trans (mergeCondition _ _ _)).trans (.remove _ _)

theorem hoistCondition (h : p.hoistCondition id = .ok q) : Keeps v p q := by
  rcases hoistCondition_cases h with rfl | ⟨f, joinId, j, condition, hop, -, hjoin, -, -, h⟩
  · exact .refl v q
  · have hset : Keeps v p (p.setOp joinId (.join { j with condition := condition })) :=
      .setOp (by rw [hjoin, v.see_plain _ _ rfl, v.see_plain _ _ rfl])
    have hfilter : v.see id ((p.setOp joinId (.join { j with condition := condition })).op id) =
        none := by
      rw [hset.see_eq, hop, v.see_plain _ _ rfl]
    rcases h with ⟨remaining, -, rfl⟩ | hbypass
    · exact hset.trans (.setOp (by rw [hfilter, v.see_plain _ _ rfl]))
    · exact hset.trans (.bypass hbypass hfilter)

theorem remapWithin {fuel oldWidth : Nat} {mapping : ColumnMap}
    (h : Plan.remapWithin fuel p id mapping oldWidth = .ok q) : Keeps v p q := by
  induction fuel generalizing p q id mapping oldWidth with
  | zero => cases h
  | succ fuel ih =>
      obtain ⟨r, hr, h⟩ := Result.bind_eq_ok.mp h
      have hself : Keeps v p r := .foldlM hr fun _ _ _ _ hstep => .replaceInput hstep (.inl rfl)
      refine hself.trans (.foldlM h fun s a t _ hstep => ?_)
      split at hstep
      · exact ih hstep
      · exact ih hstep
      · obtain ⟨m, -, hstep⟩ := Result.bind_eq_ok.mp hstep
        exact ih hstep
      · exact Result.pure_eq_ok.mp hstep ▸ .refl v s

theorem dropDeadColumns {root : Option NodeId} (h : p.dropDeadColumns root id = .ok q) :
    Keeps v p q := by
  unfold Plan.dropDeadColumns at h
  split at h
  · next j hop =>
    dsimp only at h
    split at h
    · exact Except.ok.inj h ▸ .refl v p
    · next htarget =>
      obtain ⟨used, -, h⟩ := Result.bind_eq_ok.mp h
      split at h
      · exact Result.pure_eq_ok.mp h ▸ .refl v p
      · split at h
        · exact Result.pure_eq_ok.mp h ▸ .refl v p
        · have hplain : (Operator.project j).isPlain = true := by
            simp only [Bool.or_eq_true, not_or, Bool.not_eq_true] at htarget
            simpa [Operator.isPlain, Option.isSome_eq_false_iff] using htarget.1
          refine Keeps.trans (.setOp ?_) (remapWithin h)
          rw [hop, v.see_plain _ _ hplain]
          exact v.see_plain _ _ hplain
  · exact Except.ok.inj h ▸ .refl v p

/-! ### Passes over window functions -/

theorem narrowWindow (h : p.narrowWindow id next = .ok (q, next')) : Keeps v p q := by
  rcases narrowWindow_cases h with rfl | ⟨j, input, buildId, r, hop, -, -, hr, hq⟩
  · exact .refl v q
  · obtain ⟨pre, post, horder, rfl⟩ := insertBefore_eq_ok hr
    have hid : id ≠ p.nextId := by
      rintro rfl
      rw [op_nextId] at hop
      cases hop
    refine trans (.insert (v.see_plain _ _ rfl) rfl fun n hn => ?_)
      (replaceInput hq (.inr (.inr ⟨j, ?_⟩)))
    · rw [horder]
      exact mem_middle_iff.mp hn
    · rw [← hop]
      exact op_congr (node_alloc_of_ne _ hid)

/-- A projection that is taken apart must not be watched. -/
theorem separateWindow (h : p.separateWindow id next = .ok (q, next'))
    (hwhole : ∀ j, p.op id = .project j → (splitWindows id j.exprs 0).found = true →
      ∀ j', v.see id (.project j') = none) : Keeps v p q := by
  rcases separateWindow_cases h with rfl | ⟨j, buildId, r, hop, hr, hq⟩
  · exact .refl v q
  · cases hfound : (splitWindows id j.exprs 0).found with
    | false =>
        have hstays : p.separateWindow id next = .ok (p, next) := by
          unfold Plan.separateWindow
          rw [hop]
          dsimp only
          rw [hfound]
          rfl
        cases hstays.symm.trans h
        exact .refl v p
    | true =>
        have hnone := hwhole j hop hfound
        obtain ⟨pre, post, horder, rfl⟩ := insertAfter_eq_ok hr
        -- The lower half stays where the projection was, and the upper half is a new node.
        have hset : Keeps v p (p.setOp id (.project (p.lowerHalf id j))) :=
          .setOp (by rw [hop, hnone, hnone])
        have hinsert := hset.trans (.insert (q := { (p.setOp id (.project (p.lowerHalf id j))).alloc
            (.make buildId [id] (.project (.plain (splitUpper id j.exprs).1 j.fields))) with
          order := pre ++ id :: (p.setOp id (.project (p.lowerHalf id j))).nextId :: post })
            (v.see_plain _ _ rfl) rfl fun n hn => ?_)
        · exact hinsert.trans (.replaceInputEverywhere hq (by rw [hinsert.see_eq, hop, hnone]))
        · rw [horder, append_cons]
          rw [append_cons] at hn
          simpa using mem_middle_iff.mp hn

/-! ### Chains of joins -/

theorem redirectAll (except : NodeId) (old : List NodeId) (new : NodeId) :
    Keeps v p (p.redirectAll except old new) := by
  rw [redirectAll_eq]
  generalize p.order.filter (fun n => n != except) = nodes
  suffices ∀ r, Keeps v p r → Keeps v p (nodes.foldl (fun p n => p.setOp n
      ((p.op n).mapExprs (Expr.mapColumns (redirectedColumn old new)))) r) from this p (.refl v p)
  intro r hr
  induction nodes generalizing r with
  | nil => exact hr
  | cons a nodes ih => exact ih _ (hr.trans (.setOp (v.see_mapColumns _ _ _)))

/-- Nodes that are not watched are retired. -/
theorem retireAll {flattened top : NodeId} {olds : List NodeId}
    (h : p.retireAll flattened top olds = .ok q) (holds : ∀ o ∈ olds, v.see o (p.op o) = none) :
    Keeps v p q := by
  refine Result.foldlM_keeps (motive := Keeps v p) h (.refl v p) fun o ho r s hr hstep => ?_
  obtain ⟨t, ht, hstep⟩ := Result.bind_eq_ok.mp hstep
  have hkept := hr.trans (.replaceInputEverywhere ht (by rw [hr.see_eq, holds o ho]))
  rw [← Result.pure_eq_ok.mp hstep]
  split
  · exact hkept
  · exact hkept.trans (.remove t o)

end Plan.Keeps

namespace Plan

variable {p q : Plan} {root x : NodeId}

/-- Where a chain may be headed that is not watched. -/
structure Unwatched (v : View κ) (p : Plan) (x : NodeId) : Prop where
  see_eq : v.see x (p.op x) = none
  /-- A filter is over a node that is not watched. -/
  below : (p.op x).layout = .first → ∃ i, p.inputs x = [i] ∧ v.see i (p.op i) = none

theorem Unwatched.of_joinRoots (hx : x ∈ p.joinRoots) : Unwatched v p x := by
  obtain ⟨n, -, hroot⟩ := mem_filterMap.mp hx
  obtain ⟨i, hinputs, hjoin, h⟩ := joinRoot?_eq_some hroot
  have hplain : (p.op i).isPlain = true ∧ (p.op i).layout = .all := by
    unfold isBinaryJoin at hjoin
    split at hjoin
    · next j hop => rw [hop]; exact ⟨rfl, rfl⟩
    · cases hjoin
  have hsee := v.see_plain i _ hplain.1
  rcases h with ⟨rfl, hfilter, -⟩ | rfl
  · obtain ⟨g, hg⟩ := isFilter_iff.mp hfilter
    exact ⟨by rw [hg, v.see_plain _ _ rfl], fun _ => ⟨i, hinputs, hsee⟩⟩
  · refine ⟨hsee, fun hlayout => ?_⟩
    rw [hplain.2] at hlayout
    cases hlayout

/-- No node of a chain is watched. -/
theorem Unwatched.chain {filter : Option NodeId} {topJoin leftmost : NodeId} {joins : List NodeId}
    (hroot : Unwatched v p root) (h : p.ChainAt root filter topJoin joins leftmost) :
    ∀ o ∈ filter.toList ++ joins, v.see o (p.op o) = none := by
  intro o ho
  rcases mem_append.mp ho with ho | ho
  · rw [(h.of_filter (Option.mem_toList.mp ho)).1]
    exact hroot.see_eq
  obtain ⟨below, rfl⟩ := h.chain.exists_cons
  rcases mem_cons.mp ho with rfl | ho
  · rcases chainTop_eq_ok h.top with ⟨hfilter, hinputs, -⟩ | ⟨-, -, rfl⟩
    · obtain ⟨g, hg⟩ := isFilter_iff.mp hfilter
      obtain ⟨i, hinputs', hsee⟩ := hroot.below (by rw [hg]; rfl)
      cases hinputs.symm.trans hinputs'
      exact hsee
    · exact hroot.see_eq
  · have hjoin := (h.chain.of_mem_tail o ho).1
    unfold isBinaryJoin at hjoin
    split at hjoin
    · next j hop => rw [hop, v.see_plain _ _ rfl]
    · cases hjoin

theorem Keeps.flattenAt {next next' : Nat} (h : p.flattenAt root next = .ok (q, next'))
    (hroot : Unwatched v p root) : Keeps v p q := by
  obtain ⟨filter, topJoin, joins, leftmost, inputs, op, buildId, pre, post, hchain, -, horder,
    hretire⟩ := flattenAt_eq_ok h
  have hplaced : Keeps v p { p.alloc (.make buildId inputs (.leftDeepJoin op)) with
      order := pre ++ p.nextId :: post } :=
    .insert (v.see_plain _ _ rfl) rfl fun n hn =>
      (mem_middle_iff.mp hn).imp_right fun hn => horder ▸ mem_middle_iff.mpr (.inr hn)
  have hmoved := hplaced.trans (redirectAll p.nextId joins.tail topJoin)
  exact hmoved.trans (retireAll hretire fun o ho => by
    rw [hmoved.see_eq, hroot.chain hchain o ho])

/-- Where another chain is headed stays so. -/
theorem Unwatched.flatten (hx : Unwatched v p x) (f : Flattening p root q)
    (hkeeps : Keeps v p q) (hp : p.Ordered p.order) (hroot : root ∈ p.order) (hlive : x ∈ q.order)
    (hne : x ≠ p.nextId) : Unwatched v q x := by
  refine ⟨by rw [hkeeps.see_eq, hx.see_eq], fun hlayout => ?_⟩
  rw [f.order_result hp hroot, mem_middle_iff] at hlive
  have hmem : x ∈ f.pre ++ f.post :=
    ((filter_sublist.append_right f.post).subset (hlive.resolve_left hne))
  rw [f.retires.layout_eq, f.rewires.op_layout, f.shape.layout_eq,
    op_congr (node_alloc_of_ne _ hne)] at hlayout
  obtain ⟨i, hinputs, hi⟩ := hx.below hlayout
  refine ⟨f.top.replaced p.nextId i, by rw [f.inputs_eq hp hmem, hinputs, map_singleton], ?_⟩
  rw [hkeeps.see_eq]
  -- A filter over the top of the chain reads the left-deep join, which is not watched either.
  unfold NodeId.replaced
  split
  · rw [op_nextId, v.see_default]
  · exact hi

theorem Ordered.flattenJoins_keeps (hp : p.Ordered p.order) {next next' : Nat}
    (h : p.flattenJoins next = .ok (q, next')) : Keeps v p q := by
  refine (Fresh.foldlM_keeps (motive := fun r => r.Ordered r.order ∧ Keeps v p r ∧
    ∀ x ∈ p.joinRoots, x ∈ r.order → Unwatched v r x) h
    ⟨hp, .refl v p, fun x hx _ => .of_joinRoots hx⟩ ?_).2.1
  intro root hmem r s n n' ⟨hr, hkeeps, hheads⟩ hstep
  split at hstep
  · next hlive =>
    have hroot : root ∈ r.order := contains_iff_mem.mp hlive
    obtain ⟨f⟩ := hr.flattening hroot hstep
    have hflat : Keeps v r s := .flattenAt hstep (hheads root (mem_eraseDups.mp hmem) hroot)
    refine ⟨f.ordered hr hroot, hkeeps.trans hflat, fun x hx hxLive => ?_⟩
    have hin := Nat.lt_of_lt_of_le (hp.inArena x (hp.mem_of_joinRoots hx)) hkeeps.size_le
    exact (hheads x hx (hflat.live x hxLive hin)).flatten f hflat hr hroot hxLive
      (Plan.ne_nextId hin)
  · exact (Fresh.pure_eq_ok.mp hstep).1 ▸ ⟨hr, hkeeps, hheads⟩

/-! ### Whole passes -/

/-- A view that does not see the mark shows the same after groupings were marked. -/
theorem Keeps.markNops (h : p.markNops = .ok q)
    (hmark : ∀ id a, v.see id (.aggregate { a with isNop := true }) = v.see id (.aggregate a)) :
    Keeps v p q :=
  foldlM h fun _ id _ _ hstep => markNop hstep (hmark id)

/-- A view shows the same after window functions were separated, if it sees no projection that is
taken apart. -/
theorem Keeps.separateWindows {next next' : Nat} (h : p.separateWindows next = .ok (q, next'))
    (hwhole : ∀ id j, v.see id (.project j) = v.see id (p.op id) →
      (splitWindows id j.exprs 0).found = true → ∀ j', v.see id (.project j') = none) :
    Keeps v p q :=
  foldlM_fresh h fun r id _ _ _ hr hstep => separateWindow hstep fun j hop hfound =>
    hwhole id j (by rw [← hop, hr.see_eq]) hfound

end Plan

/-- A pass that shows the same in every view. -/
def Pass.isFaithful : Pass → Bool
  | markNops | separateWindows | fuseChains _ => false
  | _ => true

theorem Pass.keeps {pass : Pass} {p q : Plan} {next next' : Nat} (hpass : pass.isFaithful = true)
    (hp : p.Ordered p.order) (h : pass.apply p next = .ok (q, next')) : Plan.Keeps v p q := by
  cases pass with
  | markNops | separateWindows | fuseChains _ => cases hpass
  | simplifySorts => exact .simplifySorts (Fresh.lift_eq_ok.mp h).1
  | eliminateCopies =>
      exact .foldlM (Fresh.lift_eq_ok.mp h).1 fun _ _ _ _ hstep => .eliminateCopy hstep
  | foldFilters => exact .foldlM (Fresh.lift_eq_ok.mp h).1 fun _ _ _ _ hstep => .foldFilter hstep
  | hoistConditions =>
      exact .foldlM (Fresh.lift_eq_ok.mp h).1 fun _ _ _ _ hstep => .hoistCondition hstep
  | eliminateDeadColumns =>
      exact .foldlM (Fresh.lift_eq_ok.mp h).1 fun _ _ _ _ hstep => .dropDeadColumns hstep
  | narrowWindows => exact .foldlM_fresh h fun _ _ _ _ _ _ hstep => .narrowWindow hstep
  | flattenJoins => exact hp.flattenJoins_keeps h

end QueryPlan
