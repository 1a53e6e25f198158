import QueryPlan.Pass.JoinChains
import QueryPlan.Proofs.Scope.Removal
import QueryPlan.Proofs.Shape.Names
/-!
# QueryPlan.Proofs.Shape.Removal

**Names under passes that take nodes out.** A sort, or a filter, has the columns of its input, so
nothing changes for the nodes that read this instead (`WellFormed.bypass_columnNames`). A copy has
the names of its input only in some order, so taking it out may rename what shows its columns.
-/

namespace QueryPlan

open List

namespace Plan

variable {p q : Plan} {id input x : NodeId} {mapping : Option ColumnMap}

/-- Taking a node out keeps the names of the nodes that do not show its columns, and of all nodes
if its input has the same names. -/
theorem WellFormed.bypass_columnNames (h : p.WellFormed) (hid : id ∈ p.order)
    (hinput : p.inputs id = [input]) (hq : p.bypass id mapping = .ok q)
    (hx : x ∈ p.order) (hshown : id ∈ p.shown x → p.columnNames input = p.columnNames id) :
    q.columnNames x = p.columnNames x := by
  obtain ⟨input', r, hinputs, hloop, rfl⟩ := bypass_eq_ok hq
  obtain rfl : input = input' := by simpa [hinput] using hinputs
  have hmem : input ∈ p.inputs id := hinput ▸ mem_singleton_self input
  have hr := h.redirection_to_input hid hmem hloop
  have harranged := hr.arranged h.arranged fun n hn hread => pair_sublist_trans h.nodup
    (h.arranged.before id hid input hmem)
    (h.arranged.before n (mem_filter.mp hn).1 id hread)
  have hshape : SameShape r (r.remove id) := .of_arena_eq rfl
  rw [hshape.columnNames_eq]
  exact hr.columnNames_eq h.arranged.toOrdered harranged.toOrdered x hx hshown

/-- Taking out a node that is not the root keeps the root. -/
theorem bypass_root? (hq : p.bypass id mapping = .ok q) (hnodup : p.order.Nodup)
    (hin : ∀ n ∈ p.order, n.index < p.arena.size) (hroot : p.root? ≠ some id) :
    q.root? = p.root? := by
  obtain ⟨input, r, -, hloop, rfl⟩ := bypass_eq_ok hq
  have hr := replaceInputEverywhere_rewired hloop hnodup hin
  have hrRoot : r.root? = p.root? := by rw [root?, hr.order_eq]; rfl
  rw [root?_remove (hrRoot ▸ hroot), hrRoot]

/-- Taking out a node that is not the root keeps the names at the root, unless the root shows its
columns and its input has other names. -/
theorem WellFormed.bypass_rootNames (h : p.WellFormed) (hid : id ∈ p.order)
    (hinput : p.inputs id = [input]) (hq : p.bypass id mapping = .ok q)
    (hroot : p.root? ≠ some id) (hshown : ∀ root ∈ p.root?, id ∈ p.shown root →
      p.columnNames input = p.columnNames id) : q.rootNames = p.rootNames := by
  rw [rootNames, rootNames, bypass_root? hq h.nodup (fun n => h.inArena) hroot]
  exact Option.map_congr fun root hroot =>
    h.bypass_columnNames hid hinput hq (mem_of_getLast? hroot) (hshown root hroot)

/-- A node that passes on the columns of its only input has its names. -/
theorem Ordered.columnNames_of_first {l : List NodeId} (h : p.Ordered l) (hid : id ∈ l)
    (hop : (p.op id).layout = .first) (hinput : p.inputs id = [input]) :
    p.columnNames id = p.columnNames input := by
  rw [h.columnNames_eq hid, hop, hinput]
  rfl

/-- Plans of one shape with the same live nodes have the same names at the root. -/
theorem SameShape.rootNames_eq (h : SameShape p q) (horder : q.order = p.order) :
    q.rootNames = p.rootNames := by
  rw [rootNames, rootNames, root?, root?, horder, h.columnNames_eq]

/-! ### Groupings and sorts -/

theorem markNops_rootNames (h : p.WellFormed) (hq : p.markNops = .ok q) :
    q.rootNames = p.rootNames := by
  refine (h.removals_induct (motive := fun _ r => r.rootNames = p.rootNames) hq rfl
    fun done id rest r r' _ hr hid hnames hstep => ?_).2
  obtain ⟨hr', horder, hshape⟩ := markNop_wellFormed hr hid hstep
  exact ⟨⟨hr', nothing_removed horder⟩, (hshape.rootNames_eq horder).trans hnames⟩

/-- A sort that makes no difference is not the root, for another one reads it. -/
theorem WellFormed.root?_ne_of_isRedundantSort (h : p.WellFormed) {earlier later : NodeId}
    (hredundant : p.isRedundantSort earlier later = .ok true) : p.root? ≠ some earlier := by
  intro hroot
  obtain ⟨-, -, -, huse⟩ := isRedundantSort_eq_ok_true hredundant
  have hunread := h.arranged.useCount_root hroot
  omega

theorem simplifySorts_rootNames (h : p.WellFormed) (hq : p.simplifySorts = .ok q) :
    q.rootNames = p.rootNames := by
  refine (simplifySorts_induct (motive := fun r => r.WellFormed ∧ r.rootNames = p.rootNames)
    h.nodup hq ⟨h, rfl⟩ fun r r' earlier later hearlier _ hr hredundant hbypass => ?_).2
  obtain ⟨hr, hnames⟩ := hr
  obtain ⟨hr', horder⟩ := bypass_redundant_wellFormed hr hearlier hredundant hbypass
  refine ⟨⟨hr', ?_⟩, horder⟩
  obtain ⟨s, hop, -⟩ := isRedundantSort_eq_ok_true hredundant
  obtain ⟨input, t, hinputs, -, -⟩ := bypass_eq_ok hbypass
  have hlayout : (r.op earlier).layout = .first := by rw [hop]; rfl
  rw [← hnames]
  exact hr.bypass_rootNames hearlier hinputs hbypass (hr.root?_ne_of_isRedundantSort hredundant)
    fun _ _ _ => (hr.arranged.columnNames_of_first hearlier hlayout hinputs).symm

/-! ### Copies -/

/-- One node may give way to another one: if the root shows columns of the first, the second has
the same names. -/
def GivesWay (p : Plan) (old new : NodeId) : Prop :=
  ∀ root ∈ p.root?, old ∈ p.shown root → p.columnNames new = p.columnNames old

instance (p : Plan) (old new : NodeId) : Decidable (p.GivesWay old new) :=
  inferInstanceAs (Decidable (∀ root ∈ p.root?, _ → _))

/-- If a node is a copy that is to be taken out, it may give way to its input. -/
def CopyGivesWay (p : Plan) (id : NodeId) : Prop :=
  match p.op id, p.inputs id with
  | .project j, [input] =>
    p.root? ≠ some id → (p.isIdenticalCopy id j).holds (fun copy => copy) = true →
      p.GivesWay id input
  | _, _ => True

instance (p : Plan) (id : NodeId) : Decidable (p.CopyGivesWay id) :=
  decideProjection _ _

/-- Every copy that the pass takes out may give way to its input when its turn comes. -/
def CopiesGiveWay (p : Plan) : Prop :=
  Result.Along (eliminateCopy p.root?) CopyGivesWay p.order p

instance (p : Plan) : Decidable p.CopiesGiveWay :=
  inferInstanceAs (Decidable (Result.Along _ _ _ _))

theorem eliminateCopy_rootNames (h : p.WellFormed) (hid : id ∈ p.order)
    (hgives : p.CopyGivesWay id) (hq : eliminateCopy p.root? p id = .ok q) :
    q.root? = p.root? ∧ q.rootNames = p.rootNames := by
  rcases eliminateCopy_cases hq with rfl | ⟨j, hop, hne, hcopy, hbypass⟩
  · exact ⟨rfl, rfl⟩
  · obtain ⟨input, r, hinputs, -, -⟩ := bypass_eq_ok hbypass
    rw [CopyGivesWay, hop, hinputs] at hgives
    refine ⟨bypass_root? hbypass h.nodup (fun n => h.inArena) hne, ?_⟩
    refine h.bypass_rootNames hid hinputs hbypass hne ?_
    exact hgives hne (Result.holds_eq_true.mpr ⟨true, hcopy, rfl⟩)

theorem eliminateCopies_rootNames (h : p.WellFormed) (hcopies : p.CopiesGiveWay)
    (hq : p.eliminateCopies = .ok q) : q.rootNames = p.rootNames := by
  refine (h.removals_induct (motive := fun done r => (r.root? = p.root? ∧
    r.rootNames = p.rootNames) ∧
      Result.Along (eliminateCopy p.root?) CopyGivesWay (p.order.drop done.length) r) hq
    ⟨⟨rfl, rfl⟩, hcopies⟩ fun done id rest r r' hsplit hr hid hmotive hstep => ?_).2.1.2
  obtain ⟨⟨hroot, hnames⟩, halong⟩ := hmotive
  rw [hsplit, drop_left] at halong
  obtain ⟨hgives, halong⟩ := halong.step hstep
  obtain ⟨hr', horder⟩ := eliminateCopy_wellFormed hr hid hstep
  obtain ⟨hroot', hnames'⟩ := eliminateCopy_rootNames hr hid hgives (hroot ▸ hstep)
  refine ⟨⟨hr', only_self_removed horder⟩, ⟨hroot'.trans hroot, hnames'.trans hnames⟩, ?_⟩
  rw [hsplit, append_cons done id rest, drop_left]
  exact halong

/-! ### Filters -/

theorem foldFilter_rootNames (h : p.WellFormed) (hid : id ∈ p.order)
    (hq : p.foldFilter id = .ok q) : q.rootNames = p.rootNames := by
  rcases foldFilter_cases hq with rfl |
    ⟨f, inner, g, input, r, hop, hinner, hopInner, -, hinput, hr, rfl⟩
  · rfl
  have hread : inner ∈ p.inputs id := hinner ▸ mem_singleton_self inner
  have hpair := h.arranged.before id hid inner hread
  have hlive : inner ∈ p.order := mem_left hpair
  have hlayout : (p.op inner).layout = .first := by rw [hopInner]; rfl
  have hrewired := replaceInput_rewired (h.inArena hid) hr
  have hordered := hrewired.ordered h.arranged.toOrdered fun n hn _ _ => by
    rw [mem_singleton.mp hn]
    exact pair_sublist_trans h.nodup
      (h.arranged.before inner hlive input (hinput ▸ mem_singleton_self input)) hpair
  have hnames := hrewired.columnNames_eq h.arranged.toOrdered hordered
  obtain ⟨hshape, horder⟩ :=
    mergeCondition_sameShape (hrewired.size_eq ▸ h.inArena hid) g.condition
  have hroot : (r.mergeCondition id g.condition).root? = p.root? := by
    rw [root?, horder, hrewired.order_eq]
    rfl
  rw [rootNames, rootNames, root?_remove (hroot ▸ h.arranged.root?_ne_of_mem_inputs hid hread),
    hroot]
  refine Option.map_congr fun root hroot => ?_
  have hremove : SameShape (r.mergeCondition id g.condition)
    ((r.mergeCondition id g.condition).remove inner) := .of_arena_eq rfl
  rw [hremove.columnNames_eq, hshape.columnNames_eq]
  exact hnames root (mem_of_getLast? hroot) fun _ =>
    (h.arranged.columnNames_of_first hlive hlayout hinput).symm

theorem foldFilters_rootNames (h : p.WellFormed) (hq : p.foldFilters = .ok q) :
    q.rootNames = p.rootNames :=
  (h.removals_induct (motive := fun _ r => r.rootNames = p.rootNames) hq rfl
    fun _ _ _ _ _ _ hr hid hnames hstep => ⟨foldFilter_wellFormed hr hid hstep,
      (foldFilter_rootNames hr hid hstep).trans hnames⟩).2

/-- Conditions are moved only if there is no filter over an inner join, so none is moved. -/
theorem hoistConditions_eq (h : p.WellFormed) (hroots : p.joinRoots.any p.isFilter = false) :
    p.hoistConditions = .ok p := by
  have hstep : ∀ id ∈ p.order, p.hoistCondition id = .ok p := by
    intro id hid
    unfold hoistCondition
    split
    · next f hop =>
      obtain ⟨joinId, hinputs, -⟩ := h.input_of_arity_one hid (by rw [hop]; rfl)
      rw [Result.bind_ok (Node.singleInput_eq_ok.mpr hinputs)]
      split
      · next j hopJoin =>
        have hkind : j.kind ≠ .inner := by
          intro hkind
          have hroot : p.joinRoot? id = some id := by
            rw [joinRoot?, hinputs]
            dsimp only
            rw [hopJoin]
            dsimp only
            rw [hop, hkind]
          have hfilter : p.isFilter id = true := by rw [isFilter, hop]
          have hany : p.joinRoots.any p.isFilter = true :=
            any_eq_true.mpr ⟨id, mem_filterMap.mpr ⟨id, hid, hroot⟩, hfilter⟩
          rw [hroots] at hany
          cases hany
        rw [if_pos (by simp [hkind])]
        rfl
      · rfl
    · rfl
  have hloop : ∀ ids ⊆ p.order, ids.foldlM hoistCondition p = .ok p := by
    intro ids hids
    induction ids with
    | nil => rfl
    | cons id ids ih =>
        obtain ⟨hid, hids⟩ := cons_subset.mp hids
        rw [foldlM_cons, Result.bind_ok (hstep id hid), ih hids]
  exact hloop p.order (Subset.refl _)

end Plan

end QueryPlan
