import QueryPlan.Proofs.Meaning.Copies
import QueryPlan.Proofs.RedundantSorts.Order
import QueryPlan.Proofs.RedundantSorts.Values
import QueryPlan.Proofs.Success.Removal
/-!
# QueryPlan.Proofs.RedundantSorts.Step

**A sort before another one.** The pass takes out a sort that a later one reads through simple
projections (`Plan.Through`), if both order rows the same way (`Plan.SortedAgain`), provided that it
remembers the sort when it comes to the later one (`Scoped.simplifySort_step`). Nothing but the later
sort sees it if nothing else reads the projections (`Plan.SoleReaders`). The rows of the projections come from the
unsorted rows then as they came from the sorted ones (`Resorted.exists_selection`), the later sort
brings them into the same order (`Resorted.rows_later`), and everything else keeps its rows
(`Resorted.rows_eq`).
-/

namespace QueryPlan

open List

/-! ### Simple projections -/

/-- Whether an operator is a projection to columns. -/
def Operator.isSimpleProject : Operator → Bool
  | project j => j.isSimple
  | _ => false

@[simp] theorem Operator.isSimpleProject_mapColumns (φ : ColumnRef → ColumnRef) (op : Operator) :
    (op.mapExprs (Expr.mapColumns φ)).isSimpleProject = op.isSimpleProject := by
  cases op with
  | project j =>
      simp [Operator.mapExprs, isSimpleProject, Project.isSimple, Function.comp_def,
        Expr.isColumn_mapColumns]
  | _ => rfl

@[simp] theorem Operator.isSimpleProject_mapPositions (f : Nat → Nat) (op : Operator) :
    (op.mapPositions f).isSimpleProject = op.isSimpleProject := by
  cases op <;> rfl

@[simp] theorem Node.isSimpleProject_moved (n : Node) (old new : NodeId)
    (mapping : Option ColumnMap) (columns : List ColumnRef) :
    (n.moved old new mapping columns).op.isSimpleProject = n.op.isSimpleProject := by
  unfold moved movedOp
  dsimp only
  split <;> simp

namespace Plan

variable {p q r : Plan} {id input earlier later x y : NodeId} {c : ColumnRef}
  {changed : List NodeId}

/-! ### Walks through projections -/

/-- A simple projection reads a node. -/
def Relays (p : Plan) (x y : NodeId) : Prop := p.isSimpleProject x = true ∧ p.inputs x = [y]

/-- A node is another one or reads it through simple projections. -/
def Through (p : Plan) : NodeId → NodeId → Prop := Relation.ReflTransGen p.Relays

theorem through_of_readsThroughProjects {fuel : Nat}
    (h : p.readsThroughProjects y fuel x = .ok true) : p.Through x y := by
  induction fuel generalizing x with
  | zero => cases h
  | succ fuel ih =>
      rw [readsThroughProjects] at h
      split at h
      · next heq => exact heq ▸ .refl
      · split at h
        · next hsimple =>
          obtain ⟨i, hi, h⟩ := Result.bind_eq_ok.mp h
          exact .head ⟨hsimple, Node.singleInput_eq_ok.mp hi⟩ (ih h)
        · cases h

theorem Ordered.readsThroughProjects_of_through {l : List NodeId} (h : p.Ordered l) (hx : x ∈ l)
    (hthrough : p.Through x y) : p.readsThroughProjects y p.walkBound x = .ok true := by
  refine h.fuel_induction (motive := fun fuel x => p.Through x y →
    p.readsThroughProjects y (fuel + 1) x = .ok true) (fun x _ fuel ih hthrough => ?_) x hx
      p.arena.size (Nat.le_refl _) hthrough
  rw [readsThroughProjects]
  rcases Relation.ReflTransGen.cases_head hthrough with rfl | ⟨i, ⟨hsimple, hinputs⟩, hthrough⟩
  · rw [if_pos rfl]
  · rw [if_pos hsimple, Result.bind_ok (Node.singleInput_eq_ok.mpr hinputs),
      ih i (hinputs ▸ mem_singleton_self i) hthrough, ite_self]

theorem Ordered.mem_of_through {l : List NodeId} (h : p.Ordered l) (hx : x ∈ l)
    (hthrough : p.Through x y) : y ∈ l := by
  induction hthrough with
  | refl => exact hx
  | tail _ hstep ih => exact h.mem_of_input ih (hstep.2 ▸ mem_singleton_self _)

theorem Ordered.eq_or_before_of_through {l : List NodeId} (h : p.Ordered l) (hx : x ∈ l)
    (hthrough : p.Through x y) : x = y ∨ [y, x] <+ l :=
  eq_or_before_of_reflTransGen (fun x => x) h.nodup
    (fun x y hx (hstep : p.Relays x y) => h.before x hx y (hstep.2 ▸ mem_singleton_self y))
    hx hthrough

theorem project_of_isSimpleProject (h : p.isSimpleProject x = true) :
    ∃ j, p.op x = .project j ∧ j.isSimple = true := by
  unfold isSimpleProject at h
  split at h
  · next j hop => exact ⟨j, hop, h⟩
  · cases h

/-- A simple projection that reads no join is a copy. -/
theorem Scoped.isCopy_of_relays (h : p.Scoped) (hx : x ∈ p.order) (hrelays : p.Relays x y)
    (hjoin : (p.op y).isJoin = false) : ∃ places j, p.IsCopy x y places j := by
  obtain ⟨hsimple, hinputs⟩ := hrelays
  obtain ⟨j, hop, hcolumns⟩ := project_of_isSimpleProject hsimple
  have hreads : p.reads x = [y] := by
    rw [reads_of_input (by rw [hop]; rfl) hinputs,
      exposed_of_not_join hjoin]
  have hplain : ∀ e ∈ j.exprs, ∃ c, e = .column c ∧ c.source = y := fun e he => by
    obtain ⟨c, rfl⟩ := Expr.exists_of_isColumn (all_eq_true.mp hcolumns e he)
    obtain ⟨k, hk⟩ := mem_iff_getElem?.mp he
    have hmem := h.mem_columnsOf hx (columns_of_project hop hk)
    rw [hreads] at hmem
    exact ⟨c, rfl, mem_singleton.mp (Plan.mem_columnsOf.mp hmem).1⟩
  obtain ⟨places, hplaces⟩ := exists_places hplain
  exact ⟨places, j, hop, hinputs, hjoin, hplaces⟩

theorem IsCopy.forwarded?_eq_some {places : List Nat} {j : Project} (hc : p.IsCopy x y places j)
    {k : Nat} : p.forwarded? ⟨x, k⟩ = some c ↔ ∃ l, places[k]? = some l ∧ c = ⟨y, l⟩ := by
  rw [forwarded?_of_project hc.inputs_eq hc.op_eq, hc.exprs_eq, getElem?_map,
    Option.map_eq_some_iff]
  exact exists_congr fun l => and_congr_right fun _ =>
    ⟨fun h => by cases h; rfl, fun h => by rw [h]⟩

theorem isSimpleProject_of_sort {s : Sorting} (hop : p.op x = .sort s) :
    p.isSimpleProject x = false := by
  rw [isSimpleProject, hop]

theorem isSimpleProject_eq (p : Plan) (x : NodeId) :
    p.isSimpleProject x = (p.op x).isSimpleProject := by
  unfold isSimpleProject
  cases p.op x <;> rfl

theorem Lowered.isSimpleProject_eq {input : NodeId} {changed : List NodeId}
    (f : Lowered p r id input changed) (hx : x ∈ p.order) :
    r.isSimpleProject x = p.isSimpleProject x := by
  rw [Plan.isSimpleProject_eq, Plan.isSimpleProject_eq, f.op_lowered hx,
    Operator.isSimpleProject_mapColumns]

/-- What reads other nodes is a simple projection if it was. -/
theorem Rewired.isSimpleProject_eq {old new : NodeId} {mapping : Option ColumnMap}
    (hr : Rewired p r old new mapping changed) (x : NodeId) :
    r.isSimpleProject x = p.isSimpleProject x := by
  rw [Plan.isSimpleProject_eq, Plan.isSimpleProject_eq]
  by_cases hx : x ∈ changed
  · obtain ⟨columns, hcolumns⟩ := hr.node_moved x hx
    rw [Plan.op, hcolumns, Node.isSimpleProject_moved]
    rfl
  · rw [hr.op_other hx]

/-! ### Sorts that are sorted again -/

/-- A plain sort that is read once, and by a sort of the same order, through simple projections. -/
structure SortedAgain (p : Plan) (earlier later : NodeId) : Prop where
  plain : ∃ s, p.op earlier = .sort s ∧ s.isPlain = true
  sole : p.useCount earlier = 1
  through : ∃ first, p.inputs later = [first] ∧ p.Through first earlier
  agree : p.sameCollation earlier later = .ok true

/-- This is what the pass asks. -/
theorem Ordered.isRedundantSort_iff (h : p.Ordered p.order) (hlater : later ∈ p.order) :
    p.isRedundantSort earlier later = .ok true ↔ p.SortedAgain earlier later := by
  constructor
  · intro hredundant
    obtain ⟨s, hop, hplain, hsole⟩ := isRedundantSort_eq_ok_true hredundant
    rw [isRedundantSort, hop] at hredundant
    dsimp only at hredundant
    rw [if_pos (by simp [hplain, hsole])] at hredundant
    obtain ⟨first, hfirst, hredundant⟩ := Result.bind_eq_ok.mp hredundant
    obtain ⟨reads, hreads, hredundant⟩ := Result.bind_eq_ok.mp hredundant
    cases reads with
    | false => cases Result.pure_eq_ok.mp hredundant
    | true =>
        have hthrough := through_of_readsThroughProjects hreads
        exact ⟨⟨s, hop, hplain⟩, hsole, ⟨first, Node.singleInput_eq_ok.mp hfirst, hthrough⟩,
          hredundant⟩
  · rintro ⟨⟨s, hop, hplain⟩, hsole, ⟨first, hfirst, hthrough⟩, hagree⟩
    have hlive := h.mem_of_input hlater (hfirst ▸ mem_singleton_self first)
    rw [isRedundantSort, hop]
    dsimp only
    rw [if_pos (by simp [hplain, hsole]), Result.bind_ok (Node.singleInput_eq_ok.mpr hfirst),
      Result.bind_ok (h.readsThroughProjects_of_through hlive hthrough)]
    exact hagree

namespace SortedAgain

variable (h : p.SortedAgain earlier later)
include h

theorem not_simple : p.isSimpleProject earlier = false := by
  obtain ⟨s, hop, -⟩ := h.plain
  exact isSimpleProject_of_sort hop

theorem later_sort : ∃ t, p.op later = .sort t := by
  have hagree := h.agree
  unfold sameCollation at hagree
  split at hagree
  · next t _ ht => exact ⟨t, ht⟩
  · cases hagree

theorem before (hp : p.Ordered p.order) (hlater : later ∈ p.order) :
    [earlier, later] <+ p.order := by
  obtain ⟨first, hfirst, hthrough⟩ := h.through
  have hbefore := hp.before later hlater first (hfirst ▸ mem_singleton_self first)
  rcases hp.eq_or_before_of_through (mem_left hbefore) hthrough with rfl | hpair
  · exact hbefore
  · exact pair_sublist_trans hp.nodup hpair hbefore

/-- Only the later sort or a simple projection reads the earlier sort. -/
theorem reader (hp : p.Ordered p.order) (hlater : later ∈ p.order) (hx : x ∈ p.order)
    (hread : earlier ∈ p.inputs x) : x = later ∨ p.isSimpleProject x = true := by
  obtain ⟨first, hfirst, hthrough⟩ := h.through
  have hmem : first ∈ p.inputs later := hfirst ▸ mem_singleton_self first
  rcases Relation.ReflTransGen.cases_tail hthrough with rfl | ⟨y, hy, hsimple, hinputs⟩
  · exact .inl (reader_unique h.sole hx hread hlater hmem)
  · have hlive := hp.mem_of_through (hp.mem_of_input hlater hmem) hy
    obtain rfl := reader_unique h.sole hx hread hlive (hinputs ▸ mem_singleton_self earlier)
    exact .inr hsimple

end SortedAgain

/-- A step of the pass. A sort is remembered, a simple projection is passed over, and at anything
else the last sort is forgotten. The last sort leaves if it is sorted again. -/
theorem Scoped.simplifySort_step (h : p.Scoped) {last : Option NodeId} (hid : id ∈ p.order)
    (hlast : ∀ e, last = some e → e ∈ p.order) :
    (simplifySort (p, last) id = .ok (p, some id) ∧ (∃ t, p.op id = .sort t) ∧
      ∀ e, last = some e → ¬p.SortedAgain e id) ∨
    (simplifySort (p, last) id = .ok (p, last) ∧ p.isSimpleProject id = true) ∨
    (simplifySort (p, last) id = .ok (p, none) ∧ p.isSimpleProject id = false ∧
      ∀ t, p.op id ≠ .sort t) ∨
    ∃ e r input changed, last = some e ∧ simplifySort (p, last) id = .ok (r.remove e, some id) ∧
      p.SortedAgain e id ∧ Lowered p r e input changed := by
  unfold simplifySort
  dsimp only
  split
  · next t hop =>
    cases last with
    | none => exact .inl ⟨rfl, ⟨t, hop⟩, nofun⟩
    | some e =>
        have hredundant : p.isRedundantSort e id = .ok true ↔ p.SortedAgain e id :=
          h.arranged.toOrdered.isRedundantSort_iff hid
        obtain ⟨b, hb⟩ := isRedundantSort_ok e h.arranged hid hop
        dsimp only
        rw [Result.bind_ok hb]
        cases b with
        | false =>
            refine .inl ⟨rfl, ⟨t, hop⟩, ?_⟩
            rintro _ ⟨⟩ hagain
            cases hb.symm.trans (hredundant.mpr hagain)
        | true =>
            have hagain := hredundant.mp hb
            obtain ⟨s, hopEarlier, -⟩ := hagain.plain
            have harity := h.arranged.arity e (hlast e rfl)
            rw [hopEarlier] at harity
            obtain ⟨input, hinputs⟩ := Arity.exactly_one_admits harity
            obtain ⟨r, hr, f⟩ := h.bypass_ok (hlast e rfl) (by rw [hopEarlier]; rfl) hinputs
            exact .inr (.inr (.inr ⟨e, r, input, _, rfl, Result.bind_ok hr, hagain, f⟩))
  · next hop =>
    cases hsimple : p.isSimpleProject id with
    | true => exact .inr (.inl ⟨by rw [if_pos rfl], rfl⟩)
    | false => exact .inr (.inr (.inl ⟨by rw [if_neg Bool.false_ne_true], rfl, hop⟩))

/-! ### What is left over a node that leaves -/

variable {V : Type} [DecidableEq V] {M : Meaning V}

/-- The rows of a node after another one has left come from the same operator, and the rows of what
is read now. -/
theorem Lowered.rows_remove (f : Lowered p r id input changed) (h : r.Unambiguous)
    (hx : x ∈ p.order) (hne : x ≠ id) : (r.remove id).rows M x =
      M.node (p.op x) (p.columnsOf (p.reads x)) ((p.inputs x).map p.columnCount)
        ((p.inputs x).map fun i => (r.remove id).rows M (id.replaced input i)) := by
  have hshape : SameShape r (r.remove id) := .of_arena_eq rfl
  have hxr : x ∈ r.order := f.order_eq ▸ hx
  have hlive : x ∈ (r.remove id).order := mem_order_remove.mpr ⟨hxr, hne⟩
  rw [f.scoped_remove.arranged.toOrdered.rows_eq hlive, hshape.columnsOf_reads_eq,
    hshape.columnCount_eq, hshape.inputs_eq, f.columnCounts_lowered hx, f.inputs_lowered hx,
    map_map]
  change M.node (r.op x) _ _ _ = _
  rw [f.op_lowered hx]
  refine Meaning.node_mapColumns (fun c hc => ?_) _ _
  refine idxOf_repositioned (f.idxOf_lt_lowered hx hc)
    (h.nodup_reads hxr (c := p.repositioned r x x c) ?_)
  rw [f.op_lowered hx, Operator.columns_mapExprs]
  exact mem_map_of_mem hc

/-! ### Taking out a sort -/

/-- A plain sort that another one reads through simple projections, which nothing else reads, leaves
the plan. Both order rows by columns with the same values. -/
structure Resorted (p r : Plan) (earlier later input : NodeId) (s t : Sorting)
    (changed : List NodeId) : Prop extends Lowered p r earlier input changed where
  unambiguous : p.Unambiguous
  later_live : later ∈ p.order
  op_earlier : p.op earlier = .sort s
  op_later : p.op later = .sort t
  plain : s.isPlain = true
  through : ∃ first, p.inputs later = [first] ∧ p.Through first earlier
  sole : ∀ x ∈ p.order, p.Through x earlier → p.useCount x = 1
  sidesApart : p.SidesApart
  agree : p.sameCollation earlier later = .ok true

namespace Resorted

variable {s t : Sorting} (f : Resorted p r earlier later input s t changed)
include f

theorem later_ne_project (hx : p.isSimpleProject x = true) : x ≠ later := by
  rintro rfl
  obtain ⟨j, hop, -⟩ := project_of_isSimpleProject hx
  rw [f.op_later] at hop
  cases hop

/-- Every simple projection over the sort is one through which the later sort reads it. -/
theorem through_first {first : NodeId} (hfirst : p.inputs later = [first])
    (hthrough : p.Through first earlier) (hx : x ∈ p.order) (hx' : p.Through x earlier) :
    p.Through first x := by
  have h := f.unambiguous.arranged
  have hfirstLive := h.mem_of_input f.later_live (hfirst ▸ mem_singleton_self first)
  induction hx' using Relation.ReflTransGen.head_induction_on with
  | refl => exact hthrough
  | @head x y hstep hrest ih =>
      have hread : y ∈ p.inputs x := hstep.2 ▸ mem_singleton_self y
      have hy := h.mem_of_input hx hread
      have huse := f.sole y hy hrest
      rcases Relation.ReflTransGen.cases_tail (ih hy) with rfl | ⟨z, hz, hrelays⟩
      · have heq := reader_unique huse hx hread f.later_live (hfirst ▸ mem_singleton_self _)
        exact absurd heq (f.later_ne_project hstep.1)
      · have hzLive := h.toOrdered.mem_of_through hfirstLive hz
        obtain rfl := reader_unique huse hx hread hzLive (hrelays.2 ▸ mem_singleton_self _)
        exact hz

/-- Nothing else reads the sort, or a projection in between. -/
theorem reader_of_through (hx : x ∈ p.order) (hread : y ∈ p.inputs x)
    (hy : p.Through y earlier) : x = later ∨ p.isSimpleProject x = true ∧ p.Through x earlier := by
  have h := f.unambiguous.arranged
  obtain ⟨first, hfirst, hthrough⟩ := f.through
  have hyLive := h.mem_of_input hx hread
  have huse := f.sole y hyLive hy
  have hfirstLive := h.mem_of_input f.later_live (hfirst ▸ mem_singleton_self first)
  rcases Relation.ReflTransGen.cases_tail (f.through_first hfirst hthrough hyLive hy) with
    rfl | ⟨z, hz, hrelays⟩
  · exact .inl (reader_unique huse hx hread f.later_live (hfirst ▸ mem_singleton_self _))
  · have hzLive := h.toOrdered.mem_of_through hfirstLive hz
    obtain rfl := reader_unique huse hx hread hzLive (hrelays.2 ▸ mem_singleton_self _)
    exact .inr ⟨hrelays.1, .head hrelays hy⟩

theorem unambiguous_resorted : r.Unambiguous := by
  refine f.unambiguous_lowered f.unambiguous fun n hn hjoin hread _ => ?_
  rcases f.reader_of_through hn hread .refl with rfl | ⟨hsimple, -⟩
  · rw [f.op_later] at hjoin
    cases hjoin
  · obtain ⟨j, hop, -⟩ := project_of_isSimpleProject hsimple
    rw [hop] at hjoin
    cases hjoin

theorem isJoin_of_through (hx : p.Through x earlier) : (p.op x).isJoin = false := by
  rcases Relation.ReflTransGen.cases_head hx with rfl | ⟨y, hrelays, -⟩
  · rw [f.op_earlier]
    rfl
  · obtain ⟨j, hop, -⟩ := project_of_isSimpleProject hrelays.1
    rw [hop]
    rfl

/-! #### What does not see the sort -/

/-- What stands before the sort keeps its rows. -/
theorem rows_before : ∀ x ∈ p.order, [x, earlier] <+ p.order →
    (r.remove earlier).rows M x = p.rows M x := by
  have h := f.unambiguous.arranged
  refine h.toOrdered.induction fun x hx ih hbefore => ?_
  have hne := ne_of_pair f.unambiguous.nodup hbefore
  rw [f.rows_remove f.unambiguous_resorted hx hne, h.toOrdered.rows_eq hx]
  refine congrArg _ (map_congr_left fun i hi => ?_)
  have hi' := pair_sublist_trans f.unambiguous.nodup (h.before x hx i hi) hbefore
  rw [NodeId.replaced_of_ne _ (ne_of_pair f.unambiguous.nodup hi'), ih i hi hi']

theorem rows_input : (r.remove earlier).rows M input = p.rows M input :=
  f.rows_before input f.input_live
    (f.unambiguous.arranged.before earlier f.live input f.input_mem)

/-- The sort puts the rows of its input in order. -/
theorem rows_earlier : p.rows M earlier = M.sorted s (p.rows M input) := by
  rw [f.unambiguous.arranged.toOrdered.rows_eq f.live, f.inputs_id, f.op_earlier]
  rfl

theorem mem_rows_earlier {row : List V} : row ∈ p.rows M earlier ↔ row ∈ p.rows M input := by
  rw [f.rows_earlier, Meaning.sorted_of_isPlain f.plain, mem_mergeSort]

/-! #### What the later sort sees -/

/-- The projections in between make their rows one by one, from the rows of the sort or of its
input. Columns that are traced over the sort are columns of these. -/
theorem exists_selection (hx : x ∈ p.order) (hthrough : p.Through x earlier) :
    ∃ g : List V → List V, p.rows M x = (p.rows M earlier).map g ∧
      (r.remove earlier).rows M (earlier.replaced input x) = (p.rows M input).map g ∧
      ∀ k c, p.TracesTo ⟨x, k⟩ c → c.source = earlier ∨ [c.source, earlier] <+ p.order →
        ∃ m, p.TracesTo ⟨earlier, m⟩ c ∧ ∀ row, M.cell (g row) k = M.cell row m := by
  have h := f.unambiguous.arranged
  induction hthrough using Relation.ReflTransGen.head_induction_on with
  | refl =>
      refine ⟨fun row => row, (map_id' _).symm, ?_, fun k c htrace _ => ⟨k, htrace, fun _ => rfl⟩⟩
      rw [NodeId.replaced_self, f.rows_input, map_id']
  | @head x y hrelays hrest ih =>
      have hread : y ∈ p.inputs x := hrelays.2 ▸ mem_singleton_self y
      have hy := h.mem_of_input hx hread
      obtain ⟨g, hrows, hrows', htraces⟩ := ih hy
      obtain ⟨places, j, hcopy⟩ :=
        f.unambiguous.toScoped.isCopy_of_relays hx hrelays (f.isJoin_of_through hrest)
      have hbefore : [earlier, x] <+ p.order := by
        rcases h.toOrdered.eq_or_before_of_through hy hrest with rfl | hpair
        · exact h.before x hx y hread
        · exact pair_sublist_trans f.unambiguous.nodup hpair (h.before x hx y hread)
      have hne : x ≠ earlier := (ne_of_pair f.unambiguous.nodup hbefore).symm
      refine ⟨fun row => M.select places (g row), ?_, ?_, fun k c htrace hc => ?_⟩
      · rw [hcopy.rows_eq f.unambiguous.toScoped hx, hrows, map_map]
        rfl
      · rw [NodeId.replaced_of_ne _ hne, f.rows_remove f.unambiguous_resorted hx hne, hrelays.2,
          map_singleton, map_singleton, hcopy.node_eq f.unambiguous.toScoped hx, hrows', map_map]
        rfl
      · -- The trace runs on below the projection, which stands behind the sort.
        rcases Relation.ReflTransGen.cases_head htrace with rfl | ⟨d, hd, htrace⟩
        · rcases hc with hc | hc
          · exact absurd hc hne
          · exact absurd hc (not_pair_swap f.unambiguous.nodup hbefore)
        · obtain ⟨l, hl, rfl⟩ := hcopy.forwarded?_eq_some.mp hd
          obtain ⟨m, hm, hcell⟩ := htraces l c htrace hc
          exact ⟨m, hm, fun row => by rw [Meaning.cell_select hl, hcell]⟩

theorem earlier_before_later : [earlier, later] <+ p.order := by
  have h := f.unambiguous.arranged
  obtain ⟨first, hfirst, hthrough⟩ := f.through
  have hread : first ∈ p.inputs later := hfirst ▸ mem_singleton_self first
  have hbefore := h.before later f.later_live first hread
  rcases h.toOrdered.eq_or_before_of_through (mem_left hbefore) hthrough with rfl | hpair
  · exact hbefore
  · exact pair_sublist_trans f.unambiguous.nodup hpair hbefore

/-- Keys that count as equivalent have the same values, over the projections in between. -/
theorem keys_agree {first : NodeId} (hfirst : p.inputs later = [first]) {g : List V → List V}
    (htraces : ∀ k c, p.TracesTo ⟨first, k⟩ c →
      c.source = earlier ∨ [c.source, earlier] <+ p.order →
      ∃ m, p.TracesTo ⟨earlier, m⟩ c ∧ ∀ row, M.cell (g row) k = M.cell row m) :
    Forall₂ (fun k l => k.direction = l.direction ∧ k.nulls = l.nulls ∧
      ∀ row ∈ p.rows M input, M.cell row k.column = M.cell (g row) l.column)
        s.collation t.collation := by
  obtain ⟨s', t', hs, ht, hkeys⟩ :=
    (f.unambiguous.toScoped.sameCollation_iff f.live f.later_live).mp f.agree
  obtain rfl := Operator.sort.inj (f.op_earlier.symm.trans hs)
  obtain rfl := Operator.sort.inj (f.op_later.symm.trans ht)
  -- Both keys are traced to one column, the later one over a column of the earlier sort.
  refine hkeys.imp fun k l ⟨hdirection, hnulls, c, hk, hl⟩ =>
    ⟨hdirection, hnulls, fun row hrow => ?_⟩
  have hc : c.source = earlier ∨ [c.source, earlier] <+ p.order :=
    (f.unambiguous.toScoped.eq_or_before f.live hk).imp_left
      fun heq => (congrArg ColumnRef.source heq).symm
  have hbefore : [c.source, later] <+ p.order := by
    rcases hc with rfl | hc
    · exact f.earlier_before_later
    · exact pair_sublist_trans f.unambiguous.nodup hc f.earlier_before_later
  rcases Relation.ReflTransGen.cases_head hl with rfl | ⟨d, hd, hl⟩
  · exact absurd rfl (ne_of_pair f.unambiguous.nodup hbefore)
  cases (forwarded?_of_filter_or_sort hfirst (.inr ⟨t, f.op_later⟩)).symm.trans hd
  obtain ⟨m, hm, hcell⟩ := htraces l.column c hl hc
  rw [hcell row]
  exact f.unambiguous.cell_eq_of_meet f.sidesApart earlier f.live k.column m ⟨c, hk, hm⟩ row
    (f.mem_rows_earlier.mpr hrow)

/-- The later sort brings the same rows into the same order. -/
theorem rows_later (hM : M.Orders) : (r.remove earlier).rows M later = p.rows M later := by
  have h := f.unambiguous.arranged
  obtain ⟨first, hfirst, hthrough⟩ := f.through
  have hfirstLive := h.mem_of_input f.later_live (hfirst ▸ mem_singleton_self first)
  obtain ⟨g, hrows, hrows', htraces⟩ := f.exists_selection (M := M) hfirstLive hthrough
  have hne := (ne_of_pair f.unambiguous.nodup f.earlier_before_later).symm
  rw [f.rows_remove f.unambiguous_resorted f.later_live hne, h.toOrdered.rows_eq f.later_live,
    hfirst, f.op_later]
  simp only [map_singleton, Meaning.node, headD_cons]
  rw [hrows', hrows, f.rows_earlier]
  exact (hM.sorted_map_sorted f.plain (f.keys_agree hfirst htraces)).symm

/-- Every node but the projections in between keeps its rows. -/
theorem rows_eq (hM : M.Orders) : ∀ x ∈ p.order, ¬p.Through x earlier →
    (r.remove earlier).rows M x = p.rows M x := by
  have h := f.unambiguous.arranged
  refine h.toOrdered.induction fun x hx ih hthrough => ?_
  by_cases hlater : x = later
  · exact hlater ▸ f.rows_later hM
  have hne : x ≠ earlier := by
    rintro rfl
    exact hthrough .refl
  rw [f.rows_remove f.unambiguous_resorted hx hne, h.toOrdered.rows_eq hx]
  refine congrArg _ (map_congr_left fun i hi => ?_)
  have hunseen : ¬p.Through i earlier := by
    intro hi'
    rcases f.reader_of_through hx hi hi' with heq | ⟨-, hx'⟩
    · exact hlater heq
    · exact hthrough hx'
  have hi' : i ≠ earlier := by
    rintro rfl
    exact hunseen .refl
  rw [NodeId.replaced_of_ne _ hi', ih i hi hunseen]

/-- The root is none of these projections. -/
theorem not_through_of_root (hroot : p.root? = some x) : ¬p.Through x earlier := by
  intro hx
  have h := f.unambiguous.arranged
  obtain ⟨first, hfirst, hthrough⟩ := f.through
  have hlive : x ∈ p.order := mem_of_getLast? hroot
  have hfirstLive := h.mem_of_input f.later_live (hfirst ▸ mem_singleton_self first)
  rcases Relation.ReflTransGen.cases_tail (f.through_first hfirst hthrough hlive hx) with
    rfl | ⟨z, hz, hrelays⟩
  · exact h.toOrdered.root?_ne_of_mem_inputs f.later_live (hfirst ▸ mem_singleton_self _) hroot
  · exact h.toOrdered.root?_ne_of_mem_inputs (h.toOrdered.mem_of_through hfirstLive hz)
      (hrelays.2 ▸ mem_singleton_self _) hroot

end Resorted

end Plan

end QueryPlan
