import QueryPlan.Proofs.Meaning.Copies
import QueryPlan.Proofs.Shape.Removal
import QueryPlan.Proofs.Success.Lookups
/-!
# QueryPlan.Proofs.Success.Removal

**Passes that mark nodes or take nodes out refuse no readable plan.** Each step finds the inputs that
it asks for, since operators have as many as they take, and what it takes out is as wide as what
takes over.
-/

namespace QueryPlan

open List

namespace Plan

variable {p q : Plan} {id : NodeId}

/-! ### Groupings -/

theorem markNop_ok (h : p.Readable) (hid : id ∈ p.order) :
    ∃ q, p.markNop id = .ok q ∧ q.Readable ∧ q.order = p.order := by
  have hrun : ∃ q, p.markNop id = .ok q := by
    unfold markNop
    split
    · next a hop =>
      split
      · obtain ⟨input, hinput, -⟩ := h.input_of_arity_one hid (by rw [hop]; rfl)
        rw [Result.bind_ok (Node.singleInput_eq_ok.mpr hinput)]
        split <;> exact ⟨_, rfl⟩
      · exact ⟨_, rfl⟩
    · exact ⟨_, rfl⟩
  obtain ⟨q, hq⟩ := hrun
  obtain ⟨hwf, horder, -⟩ := markNop_wellFormed h.toWellFormed hid hq
  refine ⟨q, hq, ⟨hwf, ?_⟩, horder⟩
  rcases markNop_cases hq with rfl | ⟨a, hop, rfl⟩
  · exact h.lookups
  · exact h.lookups.setOp (h.inArena hid) (by rw [hop]; rfl) (by rw [hop]; rfl) (by rw [hop]; rfl)

theorem markNops_ok (h : p.Readable) : ∃ q, p.markNops = .ok q ∧ q.Readable := by
  refine h.removals_ok fun r id hr hid => ?_
  obtain ⟨q, hq, hqReadable, horder⟩ := markNop_ok hr hid
  exact ⟨q, hq, hqReadable, nothing_removed horder⟩

/-! ### Sorts -/

theorem readsThroughProjects_ok (h : p.Arranged p.order) (target : NodeId) (fuel : Nat)
    (hid : id ∈ p.order) : ∃ b, p.readsThroughProjects target fuel id = .ok b := by
  induction fuel generalizing id with
  | zero => exact ⟨_, rfl⟩
  | succ fuel ih =>
      rw [readsThroughProjects]
      split
      · exact ⟨_, rfl⟩
      · split
        · next hsimple =>
          obtain ⟨j, hop⟩ : ∃ j, p.op id = .project j := by
            unfold isSimpleProject at hsimple
            split at hsimple
            · next j hop => exact ⟨j, hop⟩
            · cases hsimple
          have harity := h.arity id hid
          rw [hop] at harity
          obtain ⟨input, hinput⟩ := Arity.exactly_one_admits harity
          rw [Result.bind_ok (Node.singleInput_eq_ok.mpr hinput)]
          exact ih (h.mem_of_input hid (hinput ▸ mem_singleton_self input))
        · exact ⟨_, rfl⟩

/-- Whether a sort is redundant because of another one can be told. -/
theorem isRedundantSort_ok (earlier : NodeId) {later : NodeId} {s : Sorting}
    (h : p.Arranged p.order) (hlater : later ∈ p.order) (hop : p.op later = .sort s) :
    ∃ b, p.isRedundantSort earlier later = .ok b := by
  unfold isRedundantSort
  split
  · next t hopEarlier =>
    split
    · have harity := h.arity later hlater
      rw [hop] at harity
      obtain ⟨input, hinput⟩ := Arity.exactly_one_admits harity
      obtain ⟨b, hb⟩ := readsThroughProjects_ok h earlier p.walkBound
        (h.mem_of_input hlater (hinput ▸ mem_singleton_self input))
      rw [Result.bind_ok (Node.singleInput_eq_ok.mpr hinput), Result.bind_ok hb]
      split
      · rw [sameCollation, hopEarlier, hop]
        exact ⟨_, rfl⟩
      · exact ⟨_, rfl⟩
    · exact ⟨_, rfl⟩
  · exact ⟨_, rfl⟩

/-- A redundant sort is taken out. -/
theorem bypass_redundant_ok {earlier later : NodeId} (h : p.Readable) (hearlier : earlier ∈ p.order)
    (hredundant : p.isRedundantSort earlier later = .ok true) :
    ∃ q, p.bypass earlier none = .ok q ∧ q.Readable ∧
      q.order = p.order.filter fun n => n != earlier := by
  obtain ⟨s, hop, -⟩ := isRedundantSort_eq_ok_true hredundant
  obtain ⟨input, hinput, -⟩ := h.input_of_arity_one hearlier (by rw [hop]; rfl)
  exact h.bypass_ok hearlier (by rw [hop]; rfl) hinput
    (h.arranged.columnCount_of_first hearlier (by rw [hop]; rfl) hinput)
    fun i hi => ⟨i, rfl, hi⟩

theorem simplifySort_ok {s : Plan × Option NodeId} (h : s.1.Readable) (hid : id ∈ s.1.order)
    (hearlier : ∀ e, s.2 = some e → e ∈ s.1.order) :
    ∃ t, simplifySort s id = .ok t ∧ t.1.Readable ∧
      ((t.1 = s.1 ∧ (t.2 = some id ∨ t.2 = s.2 ∨ t.2 = none)) ∨
        ∃ e, s.2 = some e ∧ t.2 = some id ∧ t.1.order = s.1.order.filter fun n => n != e) := by
  obtain ⟨p, earlier⟩ := s
  unfold simplifySort
  dsimp only at h hid hearlier ⊢
  split
  · next sorting hop =>
    cases earlier with
    | none => exact ⟨_, rfl, h, .inl ⟨rfl, .inl rfl⟩⟩
    | some e =>
        obtain ⟨b, hb⟩ := isRedundantSort_ok e h.arranged hid hop
        dsimp only
        rw [Result.bind_ok hb]
        cases b with
        | false => exact ⟨_, rfl, h, .inl ⟨rfl, .inl rfl⟩⟩
        | true =>
            obtain ⟨q, hq, hqReadable, horder⟩ :=
              bypass_redundant_ok h (hearlier e rfl) hb
            exact ⟨(q, some id), Result.bind_ok hq, hqReadable, .inr ⟨e, rfl, rfl, horder⟩⟩
  · refine ⟨_, rfl, h, .inl ⟨rfl, .inr ?_⟩⟩
    split
    · exact .inl rfl
    · exact .inr rfl

theorem simplifySorts_ok (h : p.Readable) : ∃ q, p.simplifySorts = .ok q ∧ q.Readable := by
  have hloop : ∃ s, p.order.foldlM simplifySort (p, none) = .ok s ∧
      s.1.Readable ∧ p.SortsSeen p.order s := by
    refine Result.foldlM_ok (motive := fun done (s : Plan × Option NodeId) =>
      s.1.Readable ∧ p.SortsSeen done s) ⟨h, .start p⟩ fun done a rest s hsplit ⟨hs, hseen⟩ => ?_
    obtain ⟨⟨r, later⟩, hstep, hr, hcases⟩ := simplifySort_ok hs (hseen.mem h.nodup hsplit).1
      fun e he => (hseen.earlier e he).2
    refine ⟨_, hstep, hr, ?_⟩
    rcases hcases with ⟨rfl, hlater⟩ | ⟨e, he, rfl, horder⟩
    · exact hseen.keep h.nodup hsplit hlater
    · exact hseen.replace h.nodup hsplit he horder
  obtain ⟨s, hs, hreadable, -⟩ := hloop
  exact ⟨s.1, Result.bind_ok hs, hreadable⟩

/-! ### Copies -/

/-- Whether a projection forwards its input can be told. -/
theorem isIdentity_ok (h : p.WellFormed) (hid : id ∈ p.order) :
    ∃ b, p.isIdentity id = .ok b := by
  unfold isIdentity
  split
  · next j hop =>
    split
    · obtain ⟨input, hinput, hpair⟩ := h.input_of_arity_one hid (by rw [hop]; rfl)
      rw [Result.bind_ok (Node.singleInput_eq_ok.mpr hinput)]
      split
      · exact ⟨_, rfl⟩
      · rw [Result.bind_ok (h.arranged.width_eq (mem_left hpair))]
        split <;> exact ⟨_, rfl⟩
    · exact ⟨_, rfl⟩
  · exact ⟨_, rfl⟩

/-- Every column that a node refers to has a name. -/
theorem fieldName_of_columns (h : p.WellFormed) (hid : id ∈ p.order) {c : ColumnRef}
    (hc : c ∈ (p.op id).columns) :
    ∃ name ∈ p.columnNames c.source, p.fieldName c.source c.index = .ok name := by
  obtain ⟨hread, hlt⟩ := h.reads_of_mem hid hc
  have hlive := h.arranged.reads_subset hid hread
  rw [← h.arranged.toOrdered.length_columnNames h.fieldsMatch c.source hlive] at hlt
  exact ⟨_, getElem_mem hlt, h.arranged.toOrdered.fieldName_eq h.arranged.fed h.fieldsMatch hlive
    (getElem?_eq_getElem hlt)⟩

/-- Whether a projection gives a column another name can be told. -/
theorem isRenaming_ok (h : p.WellFormed) (hid : id ∈ p.order) :
    ∃ b, p.isRenaming id = .ok b := by
  unfold isRenaming
  split
  · next j hop =>
    refine Result.exists_anyM fun ⟨e, field⟩ he => ?_
    split
    · next c _ heq =>
      cases heq
      have hc : c ∈ (p.op id).columns := by
        rw [hop]
        exact Operator.mem_columns.mpr ⟨_, (of_mem_zip he).1, by
          simp [Expr.columns, Expr.leaves, Leaf.column?]⟩
      obtain ⟨name, -, hname⟩ := fieldName_of_columns h hid hc
      exact ⟨_, Result.bind_ok hname⟩
    · exact ⟨_, rfl⟩
  · exact ⟨_, rfl⟩

theorem isIdenticalCopy_ok (h : p.WellFormed) (hid : id ∈ p.order) (j : Project) :
    ∃ b, p.isIdenticalCopy id j = .ok b := by
  obtain ⟨identity, hidentity⟩ := isIdentity_ok h hid
  obtain ⟨renames, hrenames⟩ := isRenaming_ok h hid
  unfold isIdenticalCopy
  split
  · exact ⟨_, rfl⟩
  · rw [Result.bind_ok hidentity]
    split
    · exact ⟨_, rfl⟩
    · rw [Result.bind_ok hrenames]
      split <;> exact ⟨_, rfl⟩

/-- The mapping of a copy has a place in the input for each column. -/
theorem IsCopy.mappedPosition_ok {input : NodeId} {places : List Nat} {j : Project}
    (hc : p.IsCopy id input places j) {i : Nat} (hi : i < places.length) :
    mappedPosition id (some (forwardMap j)) i = .ok places[i] := by
  have hmem : (i, places[i]) ∈ forwardMap j := hc.mem_forwardMap.mpr (getElem?_eq_getElem hi)
  obtain ⟨k, hk⟩ : ∃ k, (forwardMap j).lookup i = some k := by
    refine Option.ne_none_iff_exists'.mp fun hnone => ?_
    simpa using lookup_eq_none_iff.mp hnone _ hmem
  have hmapped : mappedPosition id (some (forwardMap j)) i = .ok k := Result.ofOption_eq_ok.mpr hk
  have hplace := hc.mappedPosition_eq_ok hmapped
  rw [getElem?_eq_getElem hi] at hplace
  rw [hmapped, Option.some.inj hplace]

theorem eliminateCopy_ok (root : Option NodeId) (h : p.Readable) (hid : id ∈ p.order) :
    ∃ q, p.eliminateCopy root id = .ok q ∧ q.Readable ∧
      (q.order = p.order ∨ q.order = p.order.filter fun n => n != id) := by
  unfold eliminateCopy
  split
  · next j hop =>
    split
    · exact ⟨p, rfl, h, .inl rfl⟩
    · obtain ⟨b, hb⟩ := isIdenticalCopy_ok h.toWellFormed hid j
      rw [Result.bind_ok hb]
      cases b with
      | false => exact ⟨p, rfl, h, .inl rfl⟩
      | true =>
          obtain ⟨-, hidentity, -⟩ := isIdenticalCopy_eq_ok_true hb
          obtain ⟨j', input, places, hcopy⟩ := exists_isCopy hidentity
          cases hop.symm.trans hcopy.op_eq
          have hcount := h.arranged.columnCount_of_isIdentity hid hidentity hcopy.inputs_eq
          have hlength : p.columnCount id = places.length :=
            h.arranged.columnCount_of_own hid hcopy.layout_eq
          have hmapping : ∀ i < p.columnCount id,
              ∃ k, mappedPosition id (some (forwardMap j)) i = .ok k ∧ k < p.columnCount id := by
            intro i hi
            have hi : i < places.length := hlength ▸ hi
            refine ⟨places[i], hcopy.mappedPosition_ok hi, ?_⟩
            rw [hcount]
            exact hcopy.lt_of_mem h.toScoped hid (getElem_mem hi)
          obtain ⟨q, hq, hqReadable, horder⟩ :=
            h.bypass_ok hid hcopy.isJoin_eq hcopy.inputs_eq hcount hmapping
          exact ⟨q, hq, hqReadable, .inr horder⟩
  · exact ⟨p, rfl, h, .inl rfl⟩

theorem eliminateCopies_ok (h : p.Readable) : ∃ q, p.eliminateCopies = .ok q ∧ q.Readable := by
  refine h.removals_ok fun r id hr hid => ?_
  obtain ⟨q, hq, hqReadable, horder⟩ := eliminateCopy_ok p.root? hr hid
  exact ⟨q, hq, hqReadable, only_self_removed horder⟩

/-! ### Filters -/

/-- A node may read the input of a node below it that shows the columns of that input. -/
theorem replaceInput_to_input_ok {inner input : NodeId} (h : p.WellFormed) (hid : id ∈ p.order)
    (hinner : inner ∈ p.order) (hop : (p.op inner).layout = .first) (hinput : p.inputs inner = [input]) :
    ∃ q, p.replaceInput id inner input none = .ok q := by
  obtain ⟨l, hsteady⟩ := h.arranged.steady_to_input hinner (hinput ▸ mem_singleton_self input) [id]
  have hloop : ∃ q, [id].foldlM (fun p n => p.replaceInput n inner input none) p = .ok q ∧
      Redirection p q inner input none [id] := by
    refine foldlM_replaceInput_ok (nodup_singleton id) (by simpa using h.inArena hid) hsteady
      (fun n hn c hc hold => ⟨c.index, rfl, ?_⟩) fun _ _ _ hsome => absurd hsome (by simp)
    rw [← h.arranged.columnCount_of_first hinner hop hinput, ← hold]
    exact (h.reads_of_mem (mem_singleton.mp hn ▸ hid) hc).2
  obtain ⟨q, hq, -⟩ := hloop
  exact ⟨q, by simpa using hq⟩

/-- Filters look up nothing, whatever their conditions are. -/
theorem lookups_mergeCondition (hid : id.index < p.arena.size) (inner : Expr) (x : NodeId) :
    ((p.mergeCondition id inner).op x).lookups = (p.op x).lookups := by
  unfold mergeCondition
  split
  · next f hop =>
    by_cases hx : x = id
    · rw [hx, op_setOp_self _ hid, hop]
      rfl
    · rw [Plan.op, node_setOp_of_ne _ hx]
      rfl
  · rfl

theorem foldFilter_ok (h : p.Readable) (hid : id ∈ p.order) :
    ∃ q, p.foldFilter id = .ok q ∧ q.Readable := by
  have hrun : ∃ q, p.foldFilter id = .ok q := by
    unfold foldFilter
    split
    · next f hop =>
      obtain ⟨inner, hinner, hpair⟩ := h.input_of_arity_one hid (by rw [hop]; rfl)
      rw [Result.bind_ok (Node.singleInput_eq_ok.mpr hinner)]
      split
      · next g hopInner =>
        split
        · exact ⟨_, rfl⟩
        · obtain ⟨input, hinput, -⟩ := h.input_of_arity_one (mem_left hpair) (by rw [hopInner]; rfl)
          obtain ⟨r, hr⟩ := replaceInput_to_input_ok h.toWellFormed hid (mem_left hpair)
            (by rw [hopInner]; rfl) hinput
          rw [Result.bind_ok (Node.singleInput_eq_ok.mpr hinput), Result.bind_ok hr]
          exact ⟨_, rfl⟩
      · exact ⟨_, rfl⟩
    · exact ⟨_, rfl⟩
  obtain ⟨q, hq⟩ := hrun
  refine ⟨q, hq, (foldFilter_wellFormed h.toWellFormed hid hq).1, ?_⟩
  rcases foldFilter_cases hq with rfl |
    ⟨f, inner, g, input, r, hop, hinner, hopInner, -, hinput, hr, rfl⟩
  · exact h.lookups
  · have hpair := h.arranged.before id hid inner (hinner ▸ mem_singleton_self inner)
    have hpairInput := h.arranged.before inner (mem_left hpair) input
      (hinput ▸ mem_singleton_self input)
    have hcount := h.arranged.columnCount_of_first (mem_left hpair) (by rw [hopInner]; rfl) hinput
    have hred := replaceInput_redirection h.arranged (mem_left hpairInput) (h.inArena hid) hr
    have hrCount := hred.columnCount_of_eq h.arranged (hred.arranged h.arranged fun n hn _ => by
      rw [mem_singleton.mp hn]
      exact pair_sublist_trans h.nodup hpairInput hpair) hcount.symm
    have hrLookups : r.LookupsInRange := by
      refine hred.toRewired.lookupsInRange h.toWellFormed h.lookups hrCount ?_ ?_
      · rw [hrCount input (mem_left hpairInput), hcount]
      · rintro i hi k ⟨⟩
        exact hi
    obtain ⟨hshape, horder⟩ :=
      mergeCondition_sameShape (hred.size_eq ▸ h.inArena hid) g.condition
    exact (hrLookups.of_sameShape hshape (horder ▸ Subset.refl _) fun x _ =>
      lookups_mergeCondition (hred.size_eq ▸ h.inArena hid) g.condition x).remove

theorem foldFilters_ok (h : p.Readable) : ∃ q, p.foldFilters = .ok q ∧ q.Readable := by
  refine h.removals_ok fun r id hr hid => ?_
  obtain ⟨q, hq, hqReadable⟩ := foldFilter_ok hr hid
  exact ⟨q, hq, hqReadable, (foldFilter_wellFormed hr.toWellFormed hid hq).2⟩

end Plan

end QueryPlan
