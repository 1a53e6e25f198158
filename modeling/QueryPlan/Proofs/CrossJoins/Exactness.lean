import QueryPlan.Proofs.CrossJoins.Step
/-!
# QueryPlan.Proofs.CrossJoins.Exactness

**Which conjuncts go where.** A join to which a filter hands conjuncts down is read by that filter
alone, and its condition is no longer `true` afterwards. So what a run does to a filter can be told
from the plan before the run (`Plan.HandedDown`), although some nodes have come to read other ones
when its turn comes (`HandingDown.hoistSite?_eq`). Every conjunct is in the condition of the join or
in that of the filter, in the order it was, and every node but the joins keeps its rows
(`Plan.condition_hoisting_exact`).
-/

namespace QueryPlan

open List

namespace Plan

variable {p q r : Plan} {id join x y : NodeId} {f : Filter} {j : Join} {done : List NodeId}

/-- What is read in place of a node after a run has looked at some nodes. -/
def hoistTop (p : Plan) (done : List NodeId) (x : NodeId) : NodeId :=
  if done.contains x && p.isUsedUp x then (p.hoistSite? x).getD x else x

/-- What has become of a plan when some filters have handed conjuncts down. The joins and filters
have the conjuncts that they should, about the columns that they see now. Filters without any have
left, and every other node reads what is there in their place, by the columns at the same places. -/
structure HandedDown (p q : Plan) (done : List NodeId) : Prop where
  order_eq : q.order = p.order.filter fun x => !(done.contains x && p.isUsedUp x)
  node_eq : ∀ x ∈ q.order, q.node x =
    { p.node x with inputs := (p.inputs x).map (p.hoistTop done), op := q.op x }
  join_eq : ∀ y ∈ done, ∀ join f j, p.hoistSite? y = some join → p.op y = .filter f →
    p.op join = .join j → ∃ c, q.op join = .join { j with condition := c } ∧
      c.conjuncts = (f.condition.conjuncts.filter (p.crosses join)).map
        (Expr.mapColumns (p.repositioned q y join))
  filter_eq : ∀ y ∈ done, y ∈ q.order → ∀ join f, p.hoistSite? y = some join →
    p.op y = .filter f → ∃ g, q.op y = .filter g ∧
      g.condition.conjuncts = (f.condition.conjuncts.filter fun e => !p.crosses join e).map
        (Expr.mapColumns (p.repositioned q y y))
  op_eq : ∀ x ∈ q.order, (∀ y ∈ done, p.hoistSite? y ≠ some x) →
    (x ∈ done → p.hoistSite? x = none) →
      q.op x = (p.op x).mapExprs (Expr.mapColumns (p.repositioned q x x))

/-! ### Sites -/

/-- A filter is no site. -/
theorem not_site_of_filter (hop : p.op x = .filter f) (y : NodeId) : p.hoistSite? y ≠ some x := by
  intro hsite
  obtain ⟨_, -, -, hopen, -⟩ := hoistSite?_eq_some.mp hsite
  obtain ⟨j, hj, -⟩ := isOpenJoin_eq_true.mp hopen
  rw [hop] at hj
  cases hj

theorem filter_of_isUsedUp (h : p.isUsedUp x = true) : ∃ f join, p.op x = .filter f ∧
    p.hoistSite? x = some join := by
  unfold isUsedUp at h
  split at h
  · next f join hop hsite => exact ⟨f, join, hop, hsite⟩
  · cases h

/-- A site is read by its filter alone. -/
theorem eq_of_reads_site (hsite : p.hoistSite? y = some join) (hy : y ∈ p.order) (hx : x ∈ p.order)
    (hread : join ∈ p.inputs x) : x = y := by
  obtain ⟨_, -, hinputs, hopen, -⟩ := hoistSite?_eq_some.mp hsite
  obtain ⟨-, -, -, -, huse⟩ := isOpenJoin_eq_true.mp hopen
  exact reader_unique huse hx hread hy (hinputs ▸ mem_singleton_self join)

theorem isUsedUp_site (hsite : p.hoistSite? y = some join) : p.isUsedUp join = false := by
  rw [← Bool.not_eq_true]
  intro hgone
  obtain ⟨f, _, hop, -⟩ := filter_of_isUsedUp hgone
  exact not_site_of_filter hop y hsite

theorem stays_of_join (hop : p.op x = .join j) : (done.contains x && p.isUsedUp x) = false := by
  rw [Bool.and_eq_false_iff, ← Bool.not_eq_true (p.isUsedUp x)]
  right
  intro hgone
  obtain ⟨f, _, hf, -⟩ := filter_of_isUsedUp hgone
  rw [hop] at hf
  cases hf

theorem hoistTop_of_stays (hstays : (done.contains x && p.isUsedUp x) = false) :
    p.hoistTop done x = x := by
  rw [hoistTop, if_neg (by simp only [hstays, Bool.false_eq_true, not_false_eq_true])]

/-- A node is read itself, or it was a filter over a site. -/
theorem hoistTop_cases (p : Plan) (done : List NodeId) (x : NodeId) :
    (p.hoistTop done x = x ∧ (done.contains x && p.isUsedUp x) = false) ∨
      ∃ f join, x ∈ done ∧ p.op x = .filter f ∧ p.hoistSite? x = some join ∧
        p.hoistTop done x = join := by
  cases hgone : (done.contains x && p.isUsedUp x) with
  | false => exact .inl ⟨hoistTop_of_stays hgone, rfl⟩
  | true =>
      obtain ⟨hdone, hused⟩ := Bool.and_eq_true_iff.mp hgone
      obtain ⟨f, join, hop, hsite⟩ := filter_of_isUsedUp hused
      refine .inr ⟨f, join, contains_iff_mem.mp hdone, hop, hsite, ?_⟩
      rw [hoistTop, if_pos hgone, hsite]
      rfl

/-- A constant does not refer to the inputs of a join. -/
theorem crosses_of_isTrue {e : Expr} (he : e.isTrue = true) : p.crosses join e = false := by
  unfold crosses
  split
  · rw [Expr.refersToBoth, Expr.columns_of_isTrue he]
    rfl
  · rfl

/-! ### The run -/

/-- A plan on the way of a run, which has looked at some nodes. -/
structure HandingDown (p r : Plan) (done : List NodeId) : Prop extends HandedDown p r done where
  before : p.Unambiguous
  done_live : done ⊆ p.order
  unambiguous : r.Unambiguous
  columnCount_eq : ∀ x ∈ p.order, r.columnCount (p.hoistTop done x) = p.columnCount x
  useCount_eq : ∀ x ∈ r.order, (∀ y ∈ done, p.hoistSite? y ≠ some x) →
    r.useCount x = p.useCount x
  rows_eq : ∀ {V : Type} [DecidableEq V] {M : Meaning V}, M.Logical →
    ∀ x ∈ r.order, (∀ y ∈ done, p.hoistSite? y ≠ some x) → r.rows M x = p.rows M x

namespace HandingDown

variable (hs : HandingDown p r done)
include hs

theorem mem_order : x ∈ r.order ↔ x ∈ p.order ∧ (done.contains x && p.isUsedUp x) = false := by
  rw [hs.order_eq, mem_filter, Bool.not_eq_true']

theorem inputs_eq (hx : x ∈ r.order) : r.inputs x = (p.inputs x).map (p.hoistTop done) :=
  (congrArg Node.inputs (hs.node_eq x hx)).trans rfl

/-- What is read in place of a node is there. -/
theorem hoistTop_mem (hx : x ∈ p.order) : p.hoistTop done x ∈ r.order := by
  rcases p.hoistTop_cases done x with ⟨htop, hstays⟩ | ⟨f, join, hdone, -, hsite, htop⟩
  · rw [htop]
    exact hs.mem_order.mpr ⟨hx, hstays⟩
  · obtain ⟨_, -, hinputs, -⟩ := hoistSite?_eq_some.mp hsite
    rw [htop]
    refine hs.mem_order.mpr ⟨?_, by simp [isUsedUp_site hsite]⟩
    exact hs.before.arranged.mem_of_input hx (hinputs ▸ mem_singleton_self join)

theorem length_eq (hx : x ∈ r.order) :
    (r.columnsOf (r.reads x)).length = (p.columnsOf (p.reads x)).length := by
  have hxp := (hs.mem_order.mp hx).1
  rw [hs.unambiguous.arranged.length_columnsOf_reads hx,
    hs.before.arranged.length_columnsOf_reads hxp, hs.inputs_eq hx, map_map]
  refine congrArg sum (map_congr_left fun i hi => ?_)
  exact hs.columnCount_eq i (hs.before.arranged.mem_of_input hxp hi)

/-! #### The turn of a filter -/

section Below

variable (hid : id ∈ r.order) (hinputs : p.inputs id = [join]) (hopJoin : p.op join = .join j)
include hid hinputs

/-- A join below a filter whose turn has not come is no site. -/
theorem not_site (hdone : id ∉ done) : ∀ y ∈ done, p.hoistSite? y ≠ some join := by
  intro y hy hsite
  have hlive := (hs.mem_order.mp hid).1
  obtain rfl := eq_of_reads_site hsite (hs.done_live hy) hlive (hinputs ▸ mem_singleton_self join)
  exact hdone hy

include hopJoin

theorem join_live : join ∈ r.order := by
  have hlive := (hs.mem_order.mp hid).1
  refine hs.mem_order.mpr ⟨?_, stays_of_join hopJoin⟩
  exact hs.before.arranged.mem_of_input hlive (hinputs ▸ mem_singleton_self join)

theorem inputs_filter : r.inputs id = [join] := by
  rw [hs.inputs_eq hid, hinputs, map_singleton, hoistTop_of_stays (stays_of_join hopJoin)]

variable (hdone : id ∉ done)
include hdone

theorem op_join : r.op join =
    .join { j with condition := j.condition.mapColumns (p.repositioned r join join) } := by
  rw [hs.op_eq join (hs.join_live hid hinputs hopJoin) (hs.not_site hid hinputs hdone)
    fun _ => by rw [hoistSite?, hopJoin], hopJoin]
  rfl

theorem isOpenJoin_eq : r.isOpenJoin join = p.isOpenJoin join := by
  rw [isOpenJoin, isOpenJoin, hs.op_join hid hinputs hopJoin hdone, hopJoin,
    hs.useCount_eq join (hs.join_live hid hinputs hopJoin) (hs.not_site hid hinputs hdone)]
  simp only [Expr.isTrue_mapColumns]

end Below

section Turn

variable (hid : id ∈ r.order) (hdone : id ∉ done) (hop : p.op id = .filter f)
include hid hdone hop

/-- The filter has its conditions, about the columns that it sees now. -/
theorem op_filter : r.op id = .filter ⟨f.condition.mapColumns (p.repositioned r id id)⟩ := by
  rw [hs.op_eq id hid (fun y _ => not_site_of_filter hop y) fun h => absurd h hdone, hop]
  rfl

variable (hinputs : p.inputs id = [join]) (hopJoin : p.op join = .join j)
include hinputs hopJoin

/-- The columns that the filter sees have other handles only. -/
theorem repositioned_eq {c : ColumnRef} (hc : c ∈ f.condition.columns) :
    p.repositioned r id id c = ⟨p.hoistTop done c.source, c.index⟩ := by
  have hlive := (hs.mem_order.mp hid).1
  have hjoin := hs.join_live hid hinputs hopJoin
  refine repositioned_of_map ?_ (hs.before.mem_columnsOf hlive (columns_of_filter hop ▸ hc))
  rw [reads_over_join (hs.op_filter hid hdone hop)
      (hs.inputs_filter hid hinputs hopJoin)
      (hs.op_join hid hinputs hopJoin hdone),
    reads_over_join hop hinputs hopJoin,
    reads_of_join (by rw [hs.op_join hid hinputs hopJoin hdone]; rfl),
    reads_of_join (by rw [hopJoin]; rfl), hs.inputs_eq hjoin]
  exact columnsOf_map fun i hi => hs.columnCount_eq i
    (hs.before.arranged.mem_of_input (hs.mem_order.mp hjoin).1 hi)

/-- A conjunct refers to both inputs of the join if it did before the run. -/
theorem crosses_eq {e : Expr} (he : e ∈ f.condition.conjuncts) :
    r.crosses join (e.mapColumns (p.repositioned r id id)) = p.crosses join e := by
  have hlive := (hs.mem_order.mp hid).1
  have hjoin := hs.join_live hid hinputs hopJoin
  have hjoinP := (hs.mem_order.mp hjoin).1
  -- The inputs of the join are still told apart.
  have hapart : ∀ ⦃i⦄, i ∈ p.inputs join → ∀ ⦃k⦄, k ∈ p.inputs join →
      p.hoistTop done i = p.hoistTop done k → i = k := by
    have hnodup := hs.unambiguous.distinct join hjoin
      (by rw [hs.op_join hid hinputs hopJoin hdone]; rfl)
    rw [hs.inputs_eq hjoin] at hnodup
    exact inj_on_of_nodup_map hnodup
  have hsource : ∀ c ∈ f.condition.columns, c.source ∈ p.inputs join := by
    intro c hc
    have hmem := hs.before.mem_columnsOf hlive (columns_of_filter hop ▸ hc)
    rw [reads_over_join hop hinputs hopJoin, reads_of_join (by rw [hopJoin]; rfl)] at hmem
    exact (mem_columnsOf.mp hmem).1
  have hside : ∀ side ∈ p.inputs join,
      e.columns.any (fun c =>
        (r.columnsOf [p.hoistTop done side]).contains (p.repositioned r id id c)) =
        e.columns.any (p.columnsOf [side]).contains := by
    intro side hside
    rw [Bool.eq_iff_iff, any_eq_true, any_eq_true]
    refine exists_congr fun c => and_congr_right fun hc => ?_
    have hc := Expr.columns_subset_of_mem_conjuncts he hc
    have hcount := hs.columnCount_eq c.source
      (hs.before.arranged.mem_of_input hjoinP (hsource c hc))
    rw [hs.repositioned_eq hid hdone hop hinputs hopJoin hc, contains_iff_mem, contains_iff_mem,
      mem_columnsOf, mem_columnsOf, mem_singleton, mem_singleton, hcount]
    exact and_congr_left fun _ => ⟨hapart (hsource c hc) hside, fun heq => by rw [heq]⟩
  obtain ⟨left, right, hsides⟩ := hs.before.arranged.sides_of_join hjoinP hopJoin
  have hsidesR : r.inputs join = [p.hoistTop done left, p.hoistTop done right] := by
    rw [hs.inputs_eq hjoin, hsides]
    rfl
  rw [crosses, crosses, hsides, hsidesR]
  simp only [Expr.refersToBoth, Expr.columns_mapColumns, any_map]
  exact congrArg₂ and (hside left (by simp [hsides])) (hside right (by simp [hsides]))

end Turn

/-- Operators are of the same kind as before. -/
theorem op_mapExprs (hx : x ∈ r.order) : ∃ φ, r.op x = (p.op x).mapExprs φ := by
  by_cases hjoin : ∃ y ∈ done, p.hoistSite? y = some x
  · obtain ⟨y, hy, hsite⟩ := hjoin
    obtain ⟨f, hop, -, hopen, -⟩ := hoistSite?_eq_some.mp hsite
    obtain ⟨j, hj, -⟩ := isOpenJoin_eq_true.mp hopen
    obtain ⟨c, hc, -⟩ := hs.join_eq y hy x f j hsite hop hj
    exact ⟨fun _ => c, by rw [hc, hj]; rfl⟩
  by_cases hfilter : x ∈ done ∧ ∃ join, p.hoistSite? x = some join
  · obtain ⟨hdone, join, hsite⟩ := hfilter
    obtain ⟨f, hop, -⟩ := hoistSite?_eq_some.mp hsite
    obtain ⟨g, hg, -⟩ := hs.filter_eq x hdone hx join f hsite hop
    exact ⟨fun _ => g.condition, by rw [hg, hop]; rfl⟩
  · refine ⟨_, hs.op_eq x hx (fun y hy hsite => hjoin ⟨y, hy, hsite⟩) fun hdone => ?_⟩
    exact Option.eq_none_iff_forall_ne_some.mpr fun join hsite => hfilter ⟨hdone, join, hsite⟩

/-- A join that was handed conjuncts takes no more. -/
theorem isOpenJoin_site (hy : y ∈ done) (hsite : p.hoistSite? y = some join) :
    r.isOpenJoin join = false := by
  obtain ⟨f, hop, -, hopen, e, he, hcrosses⟩ := hoistSite?_eq_some.mp hsite
  obtain ⟨j, hj, -⟩ := isOpenJoin_eq_true.mp hopen
  obtain ⟨c, hc, hconjuncts⟩ := hs.join_eq y hy join f j hsite hop hj
  rw [← Bool.not_eq_true]
  intro hopenR
  obtain ⟨j', hj', -, htrue, -⟩ := isOpenJoin_eq_true.mp hopenR
  cases hc.symm.trans hj'
  have hmem : e.mapColumns (p.repositioned r y join) ∈ c.conjuncts :=
    hconjuncts ▸ mem_map_of_mem (mem_filter.mpr ⟨he, hcrosses⟩)
  have hconstant := Expr.isTrue_of_mem_conjuncts htrue hmem
  rw [Expr.isTrue_mapColumns] at hconstant
  rw [crosses_of_isTrue hconstant] at hcrosses
  cases hcrosses

theorem isOpenJoin_of_not_join (hx : x ∈ r.order) (hjoin : ∀ j, p.op x ≠ .join j) :
    r.isOpenJoin x = false := by
  obtain ⟨φ, hφ⟩ := hs.op_mapExprs hx
  rw [isOpenJoin, hφ]
  cases hop : p.op x with
  | join j => exact absurd hop (hjoin j)
  | _ => rfl

/-- A filter whose turn has not come hands its conjuncts down where it did before the run. -/
theorem hoistSite?_eq (hid : id ∈ r.order) (hdone : id ∉ done) :
    r.hoistSite? id = p.hoistSite? id := by
  have hlive := (hs.mem_order.mp hid).1
  cases hop : p.op id with
  | filter f =>
      have hopR := hs.op_filter hid hdone hop
      have harity := hs.before.arranged.arity id hlive
      rw [hop] at harity
      obtain ⟨i, hinputs⟩ := Arity.exactly_one_admits harity
      have hi := hs.before.arranged.mem_of_input hlive (hinputs ▸ mem_singleton_self i)
      by_cases hjoin : ∃ j, p.op i = .join j
      · obtain ⟨j, hopJoin⟩ := hjoin
        have hany : (f.condition.mapColumns (p.repositioned r id id)).conjuncts.any (r.crosses i) =
            f.condition.conjuncts.any (p.crosses i) := by
          rw [Expr.conjuncts_mapColumns, any_map, Bool.eq_iff_iff, any_eq_true, any_eq_true]
          refine exists_congr fun e => and_congr_right fun he => ?_
          rw [Function.comp_apply, hs.crosses_eq hid hdone hop hinputs hopJoin he]
        rw [hoistSite?, hoistSite?, hopR, hop, hs.inputs_filter hid hinputs hopJoin, hinputs]
        dsimp only
        rw [hs.isOpenJoin_eq hid hinputs hopJoin hdone, hany]
      · -- The filter reads no join, or by now one that has conjuncts already.
        have hjoin : ∀ j, p.op i ≠ .join j := fun j hj => hjoin ⟨j, hj⟩
        have hinputsR : r.inputs id = [p.hoistTop done i] := by
          rw [hs.inputs_eq hid, hinputs, map_singleton]
        have hopen : r.isOpenJoin (p.hoistTop done i) = false := by
          rcases p.hoistTop_cases done i with ⟨htop, hstays⟩ | ⟨_, join, hy, -, hsite, htop⟩
          · rw [htop]
            exact hs.isOpenJoin_of_not_join (hs.mem_order.mpr ⟨hi, hstays⟩) hjoin
          · rw [htop]
            exact hs.isOpenJoin_site hy hsite
        have hopenP : p.isOpenJoin i = false := by
          rw [isOpenJoin]
          split
          · next j hj => exact absurd hj (hjoin j)
          · rfl
        rw [hoistSite?_of_closed hinputsR hopen, hoistSite?_of_closed hinputs hopenP]
  | _ =>
      obtain ⟨φ, hφ⟩ := hs.op_mapExprs hid
      rw [hop] at hφ
      rw [hoistSite?, hoistSite?, hφ, hop]
      rfl

theorem isUsedUp_eq (hid : id ∈ r.order) (hdone : id ∉ done) : r.isUsedUp id = p.isUsedUp id := by
  have hsiteEq := hs.hoistSite?_eq hid hdone
  cases hsite : p.hoistSite? id with
  | none => rw [isUsedUp_of_none hsite, isUsedUp_of_none (hsiteEq.trans hsite)]
  | some join =>
      obtain ⟨f, hop, hinputs, hopen, -⟩ := hoistSite?_eq_some.mp hsite
      obtain ⟨j, hopJoin, -⟩ := isOpenJoin_eq_true.mp hopen
      rw [isUsedUp_of_site hop hsite,
        isUsedUp_of_site (hs.op_filter hid hdone hop) (hsiteEq.trans hsite),
        Expr.conjuncts_mapColumns, all_map, Bool.eq_iff_iff, all_eq_true, all_eq_true]
      refine forall₂_congr fun e he => ?_
      rw [Function.comp_apply, hs.crosses_eq hid hdone hop hinputs hopJoin he]

/-! #### Steps -/

/-- A node that hands nothing down stays as it is. -/
theorem skip (hid : id ∈ p.order) (hnone : p.hoistSite? id = none) :
    HandingDown p r (done ++ [id]) := by
  have hgone : ∀ x, ((done ++ [id]).contains x && p.isUsedUp x) =
      (done.contains x && p.isUsedUp x) := by
    intro x
    by_cases hx : x = id
    · rw [hx, isUsedUp_of_none hnone, Bool.and_false, Bool.and_false]
    · simp [hx]
  have htop : p.hoistTop (done ++ [id]) = p.hoistTop done := by
    funext x
    rw [hoistTop, hoistTop, hgone]
  have hdone : ∀ {y join}, y ∈ done ++ [id] → p.hoistSite? y = some join → y ∈ done := by
    intro y join hy hsite
    rcases mem_append.mp hy with hy | hy
    · exact hy
    · rw [mem_singleton.mp hy, hnone] at hsite
      cases hsite
  have hsites : ∀ {x}, (∀ y ∈ done ++ [id], p.hoistSite? y ≠ some x) →
      ∀ y ∈ done, p.hoistSite? y ≠ some x := fun hx y hy => hx y (mem_append_left _ hy)
  exact {
    order_eq := by
      rw [hs.order_eq]
      exact filter_congr fun x _ => by rw [hgone]
    node_eq := htop ▸ hs.node_eq
    join_eq := fun y hy join f j hsite => hs.join_eq y (hdone hy hsite) join f j hsite
    filter_eq := fun y hy hyr join f hsite => hs.filter_eq y (hdone hy hsite) hyr join f hsite
    op_eq := fun x hx hsite hnone => hs.op_eq x hx (hsites hsite)
      fun hxdone => hnone (mem_append_left _ hxdone)
    before := hs.before
    done_live := append_subset.mpr ⟨hs.done_live, by simpa using hid⟩
    unambiguous := hs.unambiguous
    columnCount_eq := htop ▸ hs.columnCount_eq
    useCount_eq := fun x hx hsite => hs.useCount_eq x hx (hsites hsite)
    rows_eq := fun hM x hx hsite => hs.rows_eq hM x hx (hsites hsite) }

section Step

variable {g : Filter} {k : Join} (s : Hoisted r q id join g k)
include s

/-- Columns that were moved before move once more. -/
theorem repositioned_step (hx : x ∈ q.order) {n : NodeId} {c : ColumnRef}
    (hc : c ∈ p.columnsOf (p.reads n)) (hscope : p.columnsOf (p.reads n) = p.columnsOf (p.reads x))
    (hnodup : (r.reads x).Nodup) :
    r.repositioned q x x (p.repositioned r n x c) = p.repositioned q n x c := by
  have hxr := (s.mem_order.mp hx).1
  have hlt := idxOf_lt_length_of_mem hc
  have hlength : (p.columnsOf (p.reads n)).length = (r.columnsOf (r.reads x)).length := by
    rw [hscope, hs.length_eq hxr]
  have hlength' : (r.columnsOf (r.reads x)).length = (q.columnsOf (q.reads x)).length := by
    rw [s.unambiguous.arranged.length_columnsOf_reads hxr,
      s.unambiguous_hoisted.arranged.length_columnsOf_reads hx, s.columnCounts_eq hx]
  exact repositioned_trans (hlength ▸ hlt) hnodup (hlength' ▸ hlength ▸ hlt)

theorem repositioned_exprs (hx : x ∈ q.order) {n : NodeId} {e : Expr}
    (hscope : p.columnsOf (p.reads n) = p.columnsOf (p.reads x))
    (hcolumns : e.columns ⊆ p.columnsOf (p.reads n))
    (hmoved : (e.mapColumns (p.repositioned r n x)).columns ⊆ (r.op x).columns) :
    (e.mapColumns (p.repositioned r n x)).mapColumns (r.repositioned q x x) =
      e.mapColumns (p.repositioned q n x) := by
  rw [Expr.mapColumns_mapColumns]
  refine Expr.mapColumns_congr fun c hc => ?_
  refine hs.repositioned_step s hx (hcolumns hc) hscope ?_
  refine s.unambiguous.nodup_reads (s.mem_order.mp hx).1 (c := p.repositioned r n x c) (hmoved ?_)
  rw [Expr.columns_mapColumns]
  exact mem_map_of_mem hc

variable (hdone : id ∉ done)
include hdone

theorem site : p.hoistSite? id = some join :=
  (hs.hoistSite?_eq s.live hdone).symm.trans s.site

/-- The filter has its conjuncts still, and the join has no condition of its own. -/
theorem before_step : ∃ f j, p.op id = .filter f ∧ p.op join = .join j ∧
    g.condition = f.condition.mapColumns (p.repositioned r id id) ∧
    ∀ c, { k with condition := c } = { j with condition := c } := by
  obtain ⟨f, hop, hinputs, hopen, -⟩ := hoistSite?_eq_some.mp (hs.site s hdone)
  obtain ⟨j, hopJoin, -⟩ := isOpenJoin_eq_true.mp hopen
  have hg := s.op_id.symm.trans (hs.op_filter s.live hdone hop)
  have hk := s.op_join.symm.trans (hs.op_join s.live hinputs hopJoin hdone)
  cases hg
  cases hk
  exact ⟨f, j, hop, hopJoin, rfl, fun _ => rfl⟩

/-- The node in whose place another one is read gets one more step. -/
theorem hoistTop_concat (x : NodeId) :
    p.hoistTop (done ++ [id]) x = r.stepTop id join (p.hoistTop done x) := by
  have hsite := hs.site s hdone
  obtain ⟨f, hop, -⟩ := hoistSite?_eq_some.mp hsite
  by_cases hx : x = id
  · have hstays : p.hoistTop done id = id := hoistTop_of_stays (by simp [hdone])
    rw [hx, hstays, hoistTop, stepTop, hs.isUsedUp_eq s.live hdone, hsite]
    by_cases hgone : p.isUsedUp id = true
    · simp [hgone, NodeId.replaced_self]
    · simp [hgone]
  · have hne : p.hoistTop done x ≠ id := by
      rcases p.hoistTop_cases done x with ⟨htop, -⟩ | ⟨_, join', -, -, hsite', htop⟩
      · rwa [htop]
      · rw [htop]
        rintro rfl
        exact not_site_of_filter hop x hsite'
    rw [Hoisted.stepTop_of_ne hne, hoistTop, hoistTop]
    simp [hx]

theorem ne_site_step {x : NodeId} (hsites : ∀ y ∈ done ++ [id], p.hoistSite? y ≠ some x) :
    x ≠ join ∧ ∀ y ∈ done, p.hoistSite? y ≠ some x := by
  refine ⟨?_, fun y hy => hsites y (mem_append_left _ hy)⟩
  rintro rfl
  exact hsites id (mem_append_right _ (mem_singleton_self id)) (hs.site s hdone)

theorem order_eq_step :
    q.order = p.order.filter fun x => !((done ++ [id]).contains x && p.isUsedUp x) := by
  rw [s.order_eq, hs.order_eq, filter_filter, hs.isUsedUp_eq s.live hdone]
  refine filter_congr fun x _ => ?_
  by_cases hx : x = id
  · simp [hx, hdone]
  · simp [hx]

theorem node_eq_step (hx : x ∈ q.order) : q.node x =
    { p.node x with inputs := (p.inputs x).map (p.hoistTop (done ++ [id])), op := q.op x } := by
  have hxr := (s.mem_order.mp hx).1
  have hinputs : q.inputs x = (p.inputs x).map (p.hoistTop (done ++ [id])) := by
    rw [s.inputs_eq hx, hs.inputs_eq hxr, map_map]
    exact map_congr_left fun i _ => (hs.hoistTop_concat s hdone i).symm
  rw [s.node_eq hx, hs.node_eq x hxr, hinputs]

theorem join_eq_step (hy : y ∈ done ++ [id]) {top : NodeId} {f : Filter} {j : Join}
    (hsite : p.hoistSite? y = some top) (hop : p.op y = .filter f) (hopJoin : p.op top = .join j) :
    ∃ c, q.op top = .join { j with condition := c } ∧
      c.conjuncts = (f.condition.conjuncts.filter (p.crosses top)).map
        (Expr.mapColumns (p.repositioned q y top)) := by
  have hlive := (hs.mem_order.mp s.live).1
  obtain ⟨f₀, j₀, hopId, hopSite, hcondition, hjoin⟩ := hs.before_step s hdone
  obtain ⟨f', hf, hinputs, -, -⟩ := hoistSite?_eq_some.mp hsite
  cases hf.symm.trans hop
  rcases mem_append.mp hy with hy | hy
  · -- The join was handed its conjuncts by an earlier filter.
    obtain ⟨c, hc, hconjuncts⟩ := hs.join_eq y hy top f j hsite hop hopJoin
    have hyp := hs.done_live hy
    have htop : top ∈ p.order :=
      hs.before.arranged.mem_of_input hyp (hinputs ▸ mem_singleton_self _)
    have htopId : top ≠ id := by
      rintro rfl
      cases hopJoin.symm.trans hopId
    have htopJoin : top ≠ join := by
      rintro rfl
      have heq := eq_of_reads_site (hs.site s hdone) hlive hyp (hinputs ▸ mem_singleton_self _)
      exact hdone (heq ▸ hy)
    have htopQ : top ∈ q.order := s.mem_order.mpr
      ⟨hs.mem_order.mpr ⟨htop, stays_of_join hopJoin⟩, fun heq => absurd heq htopId⟩
    refine ⟨c.mapColumns (r.repositioned q top top), ?_, ?_⟩
    · rw [s.op_other htopQ htopId htopJoin, hc]
      rfl
    · rw [Expr.conjuncts_mapColumns, hconjuncts, map_map]
      refine map_congr_left fun e he => ?_
      refine hs.repositioned_exprs s htopQ (reads_over_join hop hinputs hopJoin ▸ rfl)
        (hs.before.columns_subset_of_conjunct hyp hop (mem_filter.mp he).1) ?_
      have hcolumns : (r.op top).columns = c.columns := by
        rw [hc]
        exact flatMap_singleton ..
      rw [hcolumns]
      exact Expr.columns_subset_of_mem_conjuncts (hconjuncts ▸ mem_map_of_mem he)
  · -- The join is handed its conjuncts by this one.
    rw [mem_singleton] at hy
    subst hy
    cases (hs.site s hdone).symm.trans hsite
    cases hopId.symm.trans hop
    cases hopSite.symm.trans hopJoin
    obtain ⟨c, hnode, hconjuncts⟩ := s.node_join
    refine ⟨c, (congrArg Node.op hnode).trans (congrArg Operator.join (hjoin c)), ?_⟩
    have hscope : r.columnsOf (r.reads y) = q.columnsOf (q.reads join) :=
      s.scope_id.trans s.scope_join.symm
    rw [hconjuncts, hcondition, Expr.conjuncts_mapColumns, filter_map,
      repositioned_congr (n := y) hscope.symm]
    refine congrArg (map _) (filter_congr fun e he => ?_)
    exact hs.crosses_eq s.live hdone hop hinputs hopJoin he

theorem filter_eq_step (hy : y ∈ done ++ [id]) (hyq : y ∈ q.order) {top : NodeId} {f : Filter}
    (hsite : p.hoistSite? y = some top) (hop : p.op y = .filter f) :
    ∃ g, q.op y = .filter g ∧
      g.condition.conjuncts = (f.condition.conjuncts.filter fun e => !p.crosses top e).map
        (Expr.mapColumns (p.repositioned q y y)) := by
  obtain ⟨f₀, j₀, hopId, hopSite, hcondition, hjoin⟩ := hs.before_step s hdone
  obtain ⟨hyr, hstays⟩ := s.mem_order.mp hyq
  rcases mem_append.mp hy with hy | hy
  · obtain ⟨g', hg, hconjuncts⟩ := hs.filter_eq y hy hyr top f hsite hop
    have hyid : y ≠ id := fun heq => hdone (heq ▸ hy)
    have hyjoin : y ≠ join := by
      rintro rfl
      cases hopSite.symm.trans hop
    refine ⟨⟨g'.condition.mapColumns (r.repositioned q y y)⟩, ?_, ?_⟩
    · rw [s.op_other hyq hyid hyjoin, hg]
      rfl
    · dsimp only
      rw [Expr.conjuncts_mapColumns, hconjuncts, map_map]
      refine map_congr_left fun e he => ?_
      refine hs.repositioned_exprs s hyq rfl
        (hs.before.columns_subset_of_conjunct (hs.done_live hy) hop (mem_filter.mp he).1) ?_
      rw [columns_of_filter hg]
      exact Expr.columns_subset_of_mem_conjuncts (hconjuncts ▸ mem_map_of_mem he)
  · rw [mem_singleton] at hy
    subst hy
    cases (hs.site s hdone).symm.trans hsite
    cases hopId.symm.trans hop
    obtain ⟨f', hf, hinputs, -, -⟩ := hoistSite?_eq_some.mp hsite
    obtain ⟨g', hnode, hconjuncts⟩ := s.node_id (hstays rfl)
    refine ⟨g', congrArg Node.op hnode, ?_⟩
    have hscope : r.columnsOf (r.reads y) = q.columnsOf (q.reads y) :=
      s.scope_id.trans (s.scope_kept hyq).symm
    rw [hconjuncts, hcondition, Expr.conjuncts_mapColumns, filter_map,
      repositioned_congr (n := y) hscope.symm]
    refine congrArg (map _) (filter_congr fun e he => ?_)
    rw [Function.comp_apply, hs.crosses_eq s.live hdone hop hinputs hopSite he]

theorem op_eq_step (hx : x ∈ q.order) (hsites : ∀ y ∈ done ++ [id], p.hoistSite? y ≠ some x)
    (hnone : x ∈ done ++ [id] → p.hoistSite? x = none) :
    q.op x = (p.op x).mapExprs (Expr.mapColumns (p.repositioned q x x)) := by
  have hxr := (s.mem_order.mp hx).1
  have hxp := (hs.mem_order.mp hxr).1
  obtain ⟨hxjoin, hsites⟩ := hs.ne_site_step s hdone hsites
  have hxid : x ≠ id := by
    rintro rfl
    have hsite := hs.site s hdone
    rw [hnone (mem_append_right _ (mem_singleton_self x))] at hsite
    cases hsite
  have hop := hs.op_eq x hxr hsites fun hdone => hnone (mem_append_left _ hdone)
  rw [s.op_other hx hxid hxjoin, hop, Operator.mapExprs_mapExprs]
  refine Operator.mapExprs_congr fun e he => hs.repositioned_exprs s hx rfl (fun c hc => ?_) ?_
  · exact hs.before.mem_columnsOf hxp (Operator.mem_columns.mpr ⟨e, he, hc⟩)
  · rw [hop, Operator.columns_mapExprs, Expr.columns_mapColumns]
    exact map_subset _ fun c hc => Operator.mem_columns.mpr ⟨e, he, hc⟩

/-- A filter hands conjuncts down. -/
theorem hand : HandingDown p q (done ++ [id]) where
  order_eq := hs.order_eq_step s hdone
  node_eq _ hx := hs.node_eq_step s hdone hx
  join_eq _ hy _ _ _ hsite hop hopJoin := hs.join_eq_step s hdone hy hsite hop hopJoin
  filter_eq _ hy hyq _ _ hsite hop := hs.filter_eq_step s hdone hy hyq hsite hop
  op_eq _ hx hsites hnone := hs.op_eq_step s hdone hx hsites hnone
  before := hs.before
  done_live := append_subset.mpr ⟨hs.done_live, by simpa using (hs.mem_order.mp s.live).1⟩
  unambiguous := s.unambiguous_hoisted
  columnCount_eq x hx := by
    rw [hs.hoistTop_concat s hdone, s.columnCount_stepTop (hs.hoistTop_mem hx),
      hs.columnCount_eq x hx]
  useCount_eq x hx hsites := by
    obtain ⟨hxjoin, hsites⟩ := hs.ne_site_step s hdone hsites
    rw [s.useCount_eq hx hxjoin, hs.useCount_eq x (s.mem_order.mp hx).1 hsites]
  rows_eq hM x hx hsites := by
    obtain ⟨hxjoin, hsites⟩ := hs.ne_site_step s hdone hsites
    rw [s.rows_eq hM hx hxjoin, hs.rows_eq hM x (s.mem_order.mp hx).1 hsites]

end Step

end HandingDown

/-- At the start nothing has been handed down. -/
theorem Unambiguous.handingDown (h : p.Unambiguous) : HandingDown p p [] where
  order_eq := by simp
  node_eq x _ := by
    have htop : p.hoistTop [] = fun i => i := funext fun i => hoistTop_of_stays (by simp)
    rw [htop, map_id']
    rfl
  join_eq _ hy := by cases hy
  filter_eq _ hy := by cases hy
  op_eq x hx _ _ := by
    have hsame : Expr.mapColumns (fun c => c) = fun e => e := funext Expr.mapColumns_id
    conv_lhs => rw [← Operator.mapExprs_id (p.op x), ← hsame]
    refine Operator.mapExprs_congr fun e he => Expr.mapColumns_congr fun c hc => ?_
    exact (repositioned_of_eq rfl
      (h.mem_columnsOf hx (Operator.mem_columns.mpr ⟨e, he, hc⟩))).symm
  before := h
  done_live := nil_subset _
  unambiguous := h
  columnCount_eq x _ := by rw [hoistTop_of_stays (by simp)]
  useCount_eq _ _ _ := rfl
  rows_eq _ _ _ _ := rfl

/-- A run succeeds. -/
theorem Unambiguous.hoistConditions_ok (h : p.Unambiguous) :
    ∃ q, p.hoistConditions = .ok q ∧ HandingDown p q p.order := by
  refine removals_run (motive := fun done r => HandingDown p r done) h.nodup h.handingDown ?_
  intro done id rest r hsplit hsub hid hs
  have hdone : id ∉ done := fun hmem =>
    (nodup_append.mp (hsplit ▸ h.nodup)).2.2 id hmem id mem_cons_self rfl
  rcases hs.unambiguous.hoistCondition_ok hid with ⟨hnone, hok⟩ | ⟨q, join, f, j, hok, s⟩
  · rw [hs.hoistSite?_eq hid hdone] at hnone
    exact ⟨r, hok, hs.skip (hsub.subset hid) hnone, nothing_removed rfl⟩
  · refine ⟨q, hok, hs.hand s hdone, s.order_eq ▸ filter_sublist, fun x hx hgone => .inl ?_⟩
    by_contra hne
    exact hgone (s.mem_order.mpr ⟨hx, fun heq => absurd heq hne⟩)

/-- Hoisting conditions out of filters over cross joins succeeds. The conjuncts of a filter that
refer to both inputs of the join are those of the join afterwards, and the filter keeps the others,
in both cases in the order they had. A filter without any is gone, and what read it reads the join,
by the columns at the same places. Every node but the joins that were handed conjuncts has the rows
it had.

A condition is a property of a single row: a window function in one sees that row and no other
(`Meaning.truthAt`). -/
theorem condition_hoisting_exact (h : p.Unambiguous) :
    ∃ q, p.hoistConditions = .ok q ∧ HandedDown p q p.order ∧ q.Unambiguous ∧
      ∀ (V : Type) [DecidableEq V] (M : Meaning V), M.Logical →
        ∀ x ∈ q.order, (∀ y ∈ p.order, p.hoistSite? y ≠ some x) → q.rows M x = p.rows M x := by
  obtain ⟨q, hq, hs⟩ := h.hoistConditions_ok
  exact ⟨q, hq, hs.toHandedDown, hs.unambiguous, fun V _ M hM => hs.rows_eq hM⟩

/-- A filter over a product that is read twice, and another one over the product of its readers. -/
def filteredProducts : Plan :=
  let rows (name : String) : Operator :=
    .values ⟨[⟨name, .condition⟩], [[.bool true], [.bool false]]⟩
  let equal (left right : ColumnRef) : Expr :=
    .app (.operator .eq .condition) [.column left, .column right]
  { arena := #[.make 0 [] (rows "a"),
      .make 1 [] (rows "b"),
      .make 2 [⟨0⟩, ⟨1⟩] (.join ⟨.bool true, .inner⟩),
      .make 3 [⟨2⟩] (.filter ⟨equal ⟨⟨0⟩, 0⟩ ⟨⟨1⟩, 0⟩⟩),
      .make 4 [⟨3⟩] (.project (.plain [.column ⟨⟨3⟩, 1⟩] ["b"])),
      .make 5 [⟨3⟩, ⟨4⟩] (.join ⟨.bool true, .inner⟩),
      .make 6 [⟨5⟩] (.filter ⟨.app (.operator .and .condition)
        [.column ⟨⟨4⟩, 0⟩, equal ⟨⟨3⟩, 0⟩ ⟨⟨4⟩, 0⟩]⟩)]
    order := (range 7).map NodeId.mk }

/-- The first filter leaves, and the second one keeps a condition. -/
theorem condition_hoisting_exact_filteredProducts : filteredProducts.Unambiguous ∧
    Meaning.ofEqualities.Logical ∧ ∃ q, filteredProducts.hoistConditions = .ok q ∧
      q.order = [⟨0⟩, ⟨1⟩, ⟨2⟩, ⟨4⟩, ⟨5⟩, ⟨6⟩] ∧ q.inputs ⟨4⟩ = [⟨2⟩] ∧ q.inputs ⟨5⟩ = [⟨2⟩, ⟨4⟩] ∧
      (q.op ⟨2⟩).columns = [⟨⟨0⟩, 0⟩, ⟨⟨1⟩, 0⟩] ∧ (q.op ⟨4⟩).columns = [⟨⟨1⟩, 0⟩] ∧
      (q.op ⟨5⟩).columns = [⟨⟨2⟩, 0⟩, ⟨⟨4⟩, 0⟩] ∧ (q.op ⟨6⟩).columns = [⟨⟨4⟩, 0⟩] ∧
      q.rows .ofEqualities ⟨6⟩ = [[some true, some true, some true]] := by
  have h : filteredProducts.Unambiguous :=
    ⟨scoped_of_reads ⟨⟨by decide, by decide, by decide⟩, by decide⟩ (by decide +kernel), by decide⟩
  have hM := Meaning.ofEqualities_logical
  obtain ⟨q, hq, -, -, hrows⟩ := condition_hoisting_exact h
  have hrun : filteredProducts.hoistConditions.holds (fun q =>
      q.order == [⟨0⟩, ⟨1⟩, ⟨2⟩, ⟨4⟩, ⟨5⟩, ⟨6⟩] && q.inputs ⟨4⟩ == [⟨2⟩] &&
        q.inputs ⟨5⟩ == [⟨2⟩, ⟨4⟩] && (q.op ⟨2⟩).columns == [⟨⟨0⟩, 0⟩, ⟨⟨1⟩, 0⟩] &&
        (q.op ⟨4⟩).columns == [⟨⟨1⟩, 0⟩] &&
        (q.op ⟨5⟩).columns == [⟨⟨2⟩, 0⟩, ⟨⟨4⟩, 0⟩] && (q.op ⟨6⟩).columns == [⟨⟨4⟩, 0⟩]) = true := by
    decide +kernel
  obtain ⟨q', hq', hresult⟩ := Result.holds_eq_true.mp hrun
  obtain rfl : q = q' := Except.ok.inj (hq.symm.trans hq')
  simp only [Bool.and_eq_true, beq_iff_eq] at hresult
  obtain ⟨⟨⟨⟨⟨⟨horder, hinputs₄⟩, hinputs₅⟩, hcolumns₂⟩, hcolumns₄⟩, hcolumns₅⟩, hcolumns₆⟩ :=
    hresult
  refine ⟨h, hM, q, hq, horder, hinputs₄, hinputs₅, hcolumns₂, hcolumns₄, hcolumns₅, hcolumns₆, ?_⟩
  rw [hrows _ _ hM ⟨6⟩ (horder ▸ by decide) (by decide +kernel)]
  decide +kernel

end Plan

end QueryPlan
