import QueryPlan.Proofs.FilteredJoins.Pipeline
import QueryPlan.Proofs.RedundantSorts.Step
import QueryPlan.Proofs.Shape.Pipeline
/-!
# QueryPlan.Proofs.Shape.Conditions

**Plans that are harmless to optimize.** `Plan.Harmless` asks what two passes do on their way. Two
conditions on the plan itself answer that (`WellFormed.harmless`). A projection that only forwards
its input has the names of the input in their order (`Plan.NamesInPlace`), so a copy that goes
renames nothing. And nothing else reads an inner join below a filter (`Plan.JoinsBelongToFilters`),
so every chain of joins is flattened as it was found. The passes up to these two keep the conditions:
what reads a node that goes reads the input of that node (`Plan.Bypassed`), which has its names, and
which a filter comes to read only in place of another filter.
-/

namespace QueryPlan

open List Plan

namespace Plan

variable {p q : Plan} {id input x : NodeId} {mapping : Option ColumnMap} {next : Nat}

/-! ### Nodes that leave -/

theorem Rewired.joinRole_eq {old new : NodeId} {changed : List NodeId}
    (hr : Rewired p q old new mapping changed) (x : NodeId) :
    (q.op x).joinRole = (p.op x).joinRole := by
  by_cases hx : x ∈ changed
  · obtain ⟨columns, hcolumns⟩ := hr.node_moved x hx
    rw [Plan.op, hcolumns, Node.joinRole_moved]
    rfl
  · rw [hr.op_other hx]

/-- A node has left, and what read it reads its input. Every other node keeps its part in the chains
of joins. -/
structure Bypassed (p q : Plan) (id input : NodeId) : Prop where
  live : id ∈ p.order
  input_mem : input ∈ p.inputs id
  mem_order : ∀ x, x ∈ q.order ↔ x ∈ p.order ∧ x ≠ id
  inputs_eq : ∀ x ∈ p.order, x ≠ id → q.inputs x = (p.inputs x).map (id.replaced input)
  joinRole_eq : ∀ x, (q.op x).joinRole = (p.op x).joinRole

theorem Ordered.bypassed (h : p.Ordered p.order) (hid : id ∈ p.order)
    (hinput : p.inputs id = [input]) (hq : p.bypass id mapping = .ok q) :
    Bypassed p q id input := by
  obtain ⟨input', r, hinput', hloop, rfl⟩ := bypass_eq_ok hq
  obtain rfl : input = input' := by simpa [hinput] using hinput'
  have hmem : input ∈ p.inputs id := hinput ▸ mem_singleton_self input
  have hr := replaceInputEverywhere_rewired hloop h.nodup h.inArena
  refine ⟨hid, hmem, fun x => ?_, fun x hx _ => ?_, fun x => hr.joinRole_eq x⟩
  · rw [mem_order_remove, hr.order_eq]
  · change r.inputs x = _
    by_cases hxinput : x = input
    · -- The input does not read the node, so nothing changes there.
      have hread : id ∉ p.inputs x := hxinput ▸ h.not_reads_of_input hid hmem
      rw [hr.inputs_other (by simp [hxinput]), NodeId.map_replaced_of_not_mem input hread]
    · exact hr.inputs_eq (mem_filter.mpr ⟨hx, by simpa using hxinput⟩)

namespace Bypassed

variable (f : Bypassed p q id input)
include f

theorem mem_inputs (hx : x ∈ p.order) (hne : x ≠ id) {i : NodeId} (hi : i ∈ q.inputs x) :
    (i = input ∧ id ∈ p.inputs x) ∨ i ∈ p.inputs x := by
  rw [f.inputs_eq x hx hne] at hi
  obtain ⟨y, hy, rfl⟩ := mem_map.mp hi
  by_cases hyid : y = id
  · exact .inl ⟨by rw [hyid, NodeId.replaced_self], hyid ▸ hy⟩
  · exact .inr ((NodeId.replaced_of_ne input hyid).symm ▸ hy)

/-- Filters still have their joins to themselves, if no filter comes to read an inner join but in
place of the filter that had it. -/
theorem filtersOwnJoins (howns : p.FiltersOwnJoins)
    (hfree : p.isInnerJoin input = true → ∀ x ∈ p.order, p.isFilter x = true → id ∈ p.inputs x →
      p.OnlyReader id x ∧ p.OnlyReader input id) : q.FiltersOwnJoins := by
  intro x hx i hi
  obtain ⟨hinputs, hfilter, hinner⟩ := filteredJoin?_eq_some.mp hi
  rw [isFilter_iff_joinRole, f.joinRole_eq, ← isFilter_iff_joinRole] at hfilter
  rw [isInnerJoin_iff_joinRole, f.joinRole_eq, ← isInnerJoin_iff_joinRole] at hinner
  have hread : i ∈ q.inputs x := hinputs ▸ mem_singleton_self i
  refine ⟨hread, fun n hn hnread => ?_⟩
  obtain ⟨hx, hxid⟩ := (f.mem_order x).mp hx
  obtain ⟨hn, hnid⟩ := (f.mem_order n).mp hn
  obtain ⟨y, hy⟩ : ∃ y, p.inputs x = [y] := by
    rw [f.inputs_eq x hx hxid] at hinputs
    obtain ⟨y, hy, -⟩ := map_eq_singleton_iff.mp hinputs
    exact ⟨y, hy⟩
  rcases f.mem_inputs hx hxid hread with ⟨rfl, hxread⟩ | hxread
  · -- The filter read the node that left, and so nothing else read what this one read.
    obtain ⟨honly, hbelow⟩ := hfree hinner x hx hfilter hxread
    rcases f.mem_inputs hn hnid hnread with ⟨-, hread⟩ | hread
    · exact honly.2 n hn hread
    · exact absurd (hbelow.2 n hn hread) hnid
  · have hjoin : p.filteredJoin? x = some i := by
      rw [hy, mem_singleton] at hxread
      exact filteredJoin?_eq_some.mpr ⟨hxread ▸ hy, hfilter, hinner⟩
    obtain ⟨-, honly⟩ := howns x hx i hjoin
    rcases f.mem_inputs hn hnid hnread with ⟨rfl, hread⟩ | hread
    · exact absurd (honly id f.live f.input_mem) hxid.symm
    · exact honly n hn hread

end Bypassed

/-! ### Projections with the names of their input -/

/-- A projection to columns, other than the root, with as many columns as its input and only names
that this has, has them in the same order. -/
def NamesInPlace (p : Plan) : Prop :=
  ∀ id ∈ p.order, p.root? ≠ some id → p.isSimpleProject id = true → ∀ input ∈ p.inputs id,
    (p.columnNames id).length = (p.columnNames input).length →
      p.columnNames id ⊆ p.columnNames input → p.columnNames id = p.columnNames input

instance (p : Plan) : Decidable p.NamesInPlace :=
  inferInstanceAs (Decidable (∀ id ∈ p.order, _ → _ → ∀ input ∈ p.inputs id, _ → _ → _))

theorem isSimpleProject_of_isIdentity (h : p.isIdentity id = .ok true) :
    p.isSimpleProject id = true := by
  obtain ⟨j, _, hop, -, -, -, hcolumns⟩ := isIdentity_eq_ok_true h
  rw [isSimpleProject, hop]
  refine all_eq_true.mpr fun e he => ?_
  obtain ⟨c, rfl, -⟩ := hcolumns e he
  rfl

/-- A copy that renames nothing has only names of its input. -/
theorem columnNames_subset_of_isIdentity (h : p.WellFormed) (hid : id ∈ p.order)
    (hinput : p.inputs id = [input]) (hidentity : p.isIdentity id = .ok true)
    (hrenames : p.isRenaming id = .ok false) : p.columnNames id ⊆ p.columnNames input := by
  obtain ⟨j, input', hop, hinput', -, -, hcolumns⟩ := isIdentity_eq_ok_true hidentity
  obtain rfl : input = input' := by simpa [hinput] using hinput'
  have hfields : p.columnNames id = j.fields :=
    h.arranged.columnNames_of_own hid (by rw [hop]; rfl)
  have hmatch := h.fieldsMatch id hid
  rw [hop] at hmatch
  have hzip : (j.exprs.zip j.fields).map Prod.snd = j.fields := map_snd_zip (Nat.le_of_eq hmatch)
  rw [isRenaming, hop] at hrenames
  intro field hfield
  rw [hfields, ← hzip] at hfield
  obtain ⟨⟨e, _⟩, he, rfl⟩ := mem_map.mp hfield
  obtain ⟨c, rfl, rfl⟩ := hcolumns e (of_mem_zip he).1
  have hc : c ∈ (p.op id).columns := by
    rw [hop]
    exact Operator.mem_columns.mpr ⟨_, (of_mem_zip he).1, mem_singleton_self c⟩
  obtain ⟨name, hname, hfieldName⟩ := fieldName_of_columns h hid hc
  have hkept := Result.eq_false_of_anyM hrenames _ he
  dsimp only [Expr.column] at hkept
  rw [Result.bind_ok hfieldName] at hkept
  obtain rfl : name = _ := by simpa using Result.pure_eq_ok.mp hkept
  exact hname

namespace NamesInPlace

variable (h : p.NamesInPlace)
include h

theorem of_sameShape (hshape : SameShape p q) (horder : q.order = p.order)
    (hsimple : ∀ x, q.isSimpleProject x = p.isSimpleProject x) : q.NamesInPlace := by
  unfold NamesInPlace
  rw [root?, horder, hshape.columnNames_eq]
  simp only [hsimple, hshape.inputs_eq]
  exact h

/-- A node may leave whose input has its names. -/
theorem bypass (hp : p.WellFormed) (hid : id ∈ p.order) (hinput : p.inputs id = [input])
    (hq : p.bypass id mapping = .ok q) (hroot : p.root? ≠ some id)
    (hsame : p.columnNames input = p.columnNames id) : q.NamesInPlace := by
  have hnames : ∀ x ∈ p.order, q.columnNames x = p.columnNames x := fun x hx =>
    hp.bypass_columnNames hid hinput hq hx fun _ => hsame
  have hqRoot := bypass_root? hq hp.nodup (fun n => hp.inArena) hroot
  have f := hp.arranged.toOrdered.bypassed hid hinput hq
  obtain ⟨_, r, -, hloop, rfl⟩ := bypass_eq_ok hq
  have hr := replaceInputEverywhere_rewired hloop hp.nodup fun n => hp.inArena
  intro x hx hxroot hsimple i hi
  obtain ⟨hx, hxid⟩ := (f.mem_order x).mp hx
  have hsimple : p.isSimpleProject x = true := hr.isSimpleProject_eq x ▸ hsimple
  rw [hqRoot] at hxroot
  rw [hnames x hx]
  rcases f.mem_inputs hx hxid hi with ⟨rfl, hread⟩ | hread
  · rw [hnames i (hp.arranged.mem_of_input hid f.input_mem), hsame]
    exact h x hx hxroot hsimple id hread
  · rw [hnames i (hp.arranged.mem_of_input hx hread)]
    exact h x hx hxroot hsimple i hread

/-- A copy that is to be taken out has the names of its input. -/
theorem columnNames_of_copy {j : Project} (hp : p.WellFormed) (hid : id ∈ p.order)
    (hroot : p.root? ≠ some id) (hinput : p.inputs id = [input])
    (hcopy : p.isIdenticalCopy id j = .ok true) : p.columnNames id = p.columnNames input := by
  obtain ⟨-, hidentity, hrenames, -⟩ := isIdenticalCopy_eq_ok_true hcopy
  have hcount := hp.arranged.columnCount_of_isIdentity hid hidentity hinput
  have hmem : input ∈ p.inputs id := hinput ▸ mem_singleton_self input
  have hlength := hp.arranged.toOrdered.length_columnNames hp.fieldsMatch
  refine h id hid hroot (isSimpleProject_of_isIdentity hidentity) input hmem ?_ ?_
  · rw [hlength id hid, hlength input (hp.arranged.mem_of_input hid hmem), hcount]
  · exact columnNames_subset_of_isIdentity hp hid hinput hidentity hrenames

end NamesInPlace

/-! ### Passes that keep the conditions -/

theorem markNop_keepsJoins (hq : p.markNop id = .ok q) : KeepsJoins p q := by
  rcases markNop_cases hq with rfl | ⟨a, hop, rfl⟩
  · exact .refl q
  · exact .setOp (by rw [hop]; rfl)

theorem markNops_keepsConditions (h : p.WellFormed) (hq : p.markNops = .ok q)
    (hnames : p.NamesInPlace) (howns : p.FiltersOwnJoins) :
    q.WellFormed ∧ q.NamesInPlace ∧ q.FiltersOwnJoins := by
  refine h.removals_induct (motive := fun _ r => r.NamesInPlace ∧ r.FiltersOwnJoins) hq
    ⟨hnames, howns⟩ fun _ id _ r r' _ hr hid ⟨hnames, howns⟩ hstep => ?_
  obtain ⟨hr', horder, hshape⟩ := markNop_wellFormed hr hid hstep
  refine ⟨⟨hr', nothing_removed horder⟩, hnames.of_sameShape hshape horder fun x => ?_,
    (markNop_keepsJoins hstep).filtersOwnJoins howns⟩
  rcases markNop_cases hstep with rfl | ⟨a, hop, rfl⟩
  · rfl
  · rw [Plan.isSimpleProject_eq, Plan.isSimpleProject_eq]
    by_cases hx : x = id
    · rw [hx, op_setOp_self _ (hr.inArena hid), hop]
      rfl
    · rw [op_congr (node_setOp_of_ne _ hx)]

/-- No filter reads a sort that makes no difference. -/
theorem simplifySorts_keepsConditions (h : p.WellFormed) (hq : p.simplifySorts = .ok q)
    (hnames : p.NamesInPlace) (howns : p.FiltersOwnJoins) :
    q.WellFormed ∧ q.NamesInPlace ∧ q.FiltersOwnJoins := by
  refine simplifySorts_induct (motive := fun r => r.WellFormed ∧ r.NamesInPlace ∧
    r.FiltersOwnJoins) h.nodup hq ⟨h, hnames, howns⟩
    fun r r' earlier later hearlier hlater ⟨hr, hnames, howns⟩ hredundant hbypass => ?_
  obtain ⟨hr', horder⟩ := bypass_redundant_wellFormed hr hearlier hredundant hbypass
  obtain ⟨s, hop, -⟩ := isRedundantSort_eq_ok_true hredundant
  obtain ⟨input, _, hinput, -, -⟩ := bypass_eq_ok hbypass
  have hordered := hr.arranged.toOrdered
  have hsame := hordered.columnNames_of_first hearlier (by rw [hop]; rfl) hinput
  refine ⟨⟨hr', hnames.bypass hr hearlier hinput hbypass
    (hr.root?_ne_of_isRedundantSort hredundant) hsame.symm, ?_⟩, horder⟩
  refine (hordered.bypassed hearlier hinput hbypass).filtersOwnJoins howns
    fun _ x hx hfilter hread => ?_
  have hagain := (hordered.isRedundantSort_iff hlater).mp hredundant
  obtain ⟨f, hfilter⟩ := isFilter_iff.mp hfilter
  rcases hagain.reader hordered hlater hx hread with rfl | hsimple
  · obtain ⟨t, ht⟩ := hagain.later_sort
    rw [hfilter] at ht
    cases ht
  · rw [isSimpleProject, hfilter] at hsimple
    cases hsimple

/-- A copy reads no join. -/
theorem eliminateCopy_filtersOwnJoins {root : Option NodeId} (h : p.Ordered p.order)
    (hid : id ∈ p.order) (hq : eliminateCopy root p id = .ok q) (howns : p.FiltersOwnJoins) :
    q.FiltersOwnJoins := by
  rcases eliminateCopy_cases hq with rfl | ⟨j, -, -, hcopy, hbypass⟩
  · exact howns
  obtain ⟨-, hidentity, -⟩ := isIdenticalCopy_eq_ok_true hcopy
  obtain ⟨_, input, -, hinput, hjoin, -⟩ := isIdentity_eq_ok_true hidentity
  refine (h.bypassed hid hinput hbypass).filtersOwnJoins howns fun hinner => ?_
  unfold isInnerJoin at hinner
  split at hinner
  · next hop =>
    rw [hop] at hjoin
    cases hjoin
  · cases hinner

theorem eliminateCopies_filtersOwnJoins (h : p.WellFormed) (hq : p.eliminateCopies = .ok q)
    (howns : p.FiltersOwnJoins) : q.WellFormed ∧ q.FiltersOwnJoins :=
  h.removals_induct (motive := fun _ r => r.FiltersOwnJoins) hq howns
    fun _ _ _ _ _ _ hr hid howns hstep => by
      obtain ⟨hr', horder⟩ := eliminateCopy_wellFormed hr hid hstep
      exact ⟨⟨hr', only_self_removed horder⟩,
        eliminateCopy_filtersOwnJoins hr.arranged.toOrdered hid hstep howns⟩

theorem KeepsJoins.mergeCondition (p : Plan) (id : NodeId) (inner : Expr) :
    KeepsJoins p (p.mergeCondition id inner) := by
  unfold Plan.mergeCondition
  split
  · next f hop => exact .setOp (by rw [hop]; rfl)
  · exact .refl p

/-- A filter whose condition goes into the only node that reads it has left the plan as well. -/
theorem Arranged.bypassed_of_merged {outer inner : NodeId} {r : Plan} (h : p.Arranged p.order)
    (hid : outer ∈ p.order) (hinner : inner ∈ p.inputs outer) (huse : p.useCount inner = 1)
    (hinput : input ∈ p.inputs inner) (hr : p.replaceInput outer inner input none = .ok r)
    (condition : Expr) :
    Bypassed p ((r.mergeCondition outer condition).remove inner) inner input := by
  have hin : outer.index < p.arena.size := h.inArena outer hid
  have hrewired := replaceInput_rewired hin hr
  obtain ⟨hshape, horder⟩ := mergeCondition_sameShape (hrewired.size_eq ▸ hin) condition
  have hkeeps := KeepsJoins.mergeCondition r outer condition
  refine ⟨h.mem_of_input hid hinner, hinput, fun x => ?_, fun x hx _ => ?_, fun x => ?_⟩
  · rw [mem_order_remove, horder, hrewired.order_eq]
  · change (r.mergeCondition outer condition).inputs x = _
    rw [hshape.inputs_eq]
    by_cases hxouter : x = outer
    · exact hrewired.inputs_eq (hxouter ▸ mem_singleton_self outer)
    · rw [hrewired.inputs_other (by simpa using hxouter),
        NodeId.map_replaced_of_not_mem input fun hread =>
          hxouter (reader_unique huse hx hread hid hinner)]
  · exact (hkeeps.role_eq x).trans (hrewired.joinRole_eq x)

/-- A filter that comes to read an inner join takes over from the filter that had it. -/
theorem foldFilter_filtersOwnJoins (h : p.WellFormed) (hid : id ∈ p.order)
    (hq : p.foldFilter id = .ok q) (howns : p.FiltersOwnJoins) : q.FiltersOwnJoins := by
  rcases foldFilter_cases hq with rfl |
    ⟨f, inner, g, input, r, hop, hinner, hopInner, huse, hinput, hr, rfl⟩
  · exact howns
  have hread : inner ∈ p.inputs id := hinner ▸ mem_singleton_self inner
  have hlive : inner ∈ p.order := h.arranged.mem_of_input hid hread
  have f := h.arranged.bypassed_of_merged hid hread huse (hinput ▸ mem_singleton_self input) hr
    g.condition
  refine f.filtersOwnJoins howns fun hjoin x hx _ hxread => ⟨⟨hxread, fun n hn hnread => ?_⟩, ?_⟩
  · exact reader_unique huse hn hnread hx hxread
  · exact howns inner hlive input
      (filteredJoin?_eq_some.mpr ⟨hinput, isFilter_iff.mpr ⟨g, hopInner⟩, hjoin⟩)

theorem foldFilters_filtersOwnJoins (h : p.WellFormed) (hq : p.foldFilters = .ok q)
    (howns : p.FiltersOwnJoins) : q.WellFormed ∧ q.FiltersOwnJoins :=
  h.removals_induct (motive := fun _ r => r.FiltersOwnJoins) hq howns
    fun _ _ _ _ _ _ hr hid howns hstep => ⟨foldFilter_wellFormed hr hid hstep,
      foldFilter_filtersOwnJoins hr hid hstep howns⟩

/-! ### The two passes -/

/-- Where projections have the names of their input in place, the copies that go may go. -/
theorem NamesInPlace.copiesGiveWay (h : p.NamesInPlace) (hp : p.WellFormed) : p.CopiesGiveWay := by
  have hnext : ∀ {done rest id} {r : Plan}, p.order = done ++ id :: rest →
      (∀ x ∈ p.order, x ∉ done → x ∈ r.order) → id ∈ r.order := fun {_ _ id _} hsplit hlive =>
    hlive id (by simp [hsplit]) fun hdone =>
      (nodup_append.mp (hsplit ▸ hp.nodup)).2.2 id hdone id mem_cons_self rfl
  refine .of_keeps (motive := fun done r => r.WellFormed ∧ r.NamesInPlace ∧ r.root? = p.root? ∧
    ∀ x ∈ p.order, x ∉ done → x ∈ r.order) ⟨hp, h, rfl, fun _ hx _ => hx⟩ ?_ ?_
  · rintro done id rest r hsplit ⟨hr, hnames, -, hlive⟩
    have hid := hnext hsplit hlive
    unfold CopyGivesWay
    split
    · next j input hop hinput =>
      intro hroot hholds _ _ _
      obtain ⟨b, hcopy, rfl⟩ := Result.holds_eq_true.mp hholds
      exact (hnames.columnNames_of_copy hr hid hroot hinput hcopy).symm
    · trivial
  · rintro done id rest r s hsplit ⟨hr, hnames, hroot, hlive⟩ hstep
    have hid := hnext hsplit hlive
    obtain ⟨hs, horder⟩ := eliminateCopy_wellFormed hr hid hstep
    have hlive' : ∀ x ∈ p.order, x ∉ done ++ [id] → x ∈ s.order := by
      intro x hx hxdone
      rw [mem_append, mem_singleton, not_or] at hxdone
      have hxr := hlive x hx hxdone.1
      rcases horder with horder | horder
      · rwa [horder]
      · rw [horder]
        exact mem_filter.mpr ⟨hxr, by simpa using hxdone.2⟩
    rcases eliminateCopy_cases hstep with rfl | ⟨j, -, hne, hcopy, hbypass⟩
    · exact ⟨hs, hnames, hroot, hlive'⟩
    obtain ⟨input, _, hinput, -, -⟩ := bypass_eq_ok hbypass
    rw [← hroot] at hne
    have hsame := hnames.columnNames_of_copy hr hid hne hinput hcopy
    exact ⟨hs, hnames.bypass hr hid hinput hbypass hne hsame.symm,
      (bypass_root? hbypass hr.nodup (fun n => hr.inArena) hne).trans hroot, hlive'⟩

/-- Where inner joins belong to the filters right above them, every chain that is flattened has a
join at its top. -/
theorem JoinsBelongToFilters.chainsGiveWay (h : p.JoinsBelongToFilters) (hp : p.WellFormed)
    (next : Nat) : p.ChainsGiveWay next := by
  refine .of_keeps (motive := fun done (s : Plan × Nat) => Found p done s.1) (h.found hp) ?_ ?_
  · intro done root rest s hsplit hfound hlive
    obtain ⟨filter, topJoin, htop, hjoin⟩ := hfound.exists_top hsplit (contains_iff_mem.mp hlive)
    rw [htop]
    exact .inl hjoin
  · intro done root rest s t hsplit hfound hstep
    unfold flattenIfLive at hstep
    split at hstep
    · next hlive =>
      have hroot : root ∈ s.1.order := contains_iff_mem.mp hlive
      have hrootMem : root ∈ p.joinRoots := mem_eraseDups.mp (hsplit ▸ by simp)
      obtain ⟨filter, topJoin, htop, hjoin⟩ := hfound.exists_top hsplit hroot
      obtain ⟨f⟩ := hfound.wellFormed.arranged.toOrdered.flattening hroot hstep
      obtain ⟨-, rfl⟩ : f.filter = filter ∧ f.topJoin = topJoin := by
        simpa using f.chain.top.symm.trans htop
      exact hfound.flatten hp hrootMem f hroot hjoin
    · obtain ⟨hst, -⟩ := Fresh.pure_eq_ok.mp hstep
      exact hst ▸ hfound.skip

/-! ### The pipeline -/

/-- Optimizing is harmless to a plan whose projections have the names of their input in place, and
in which inner joins belong to the filters right above them. -/
theorem WellFormed.harmless (h : p.WellFormed) (hnames : p.NamesInPlace)
    (hfilters : p.JoinsBelongToFilters) (settings : Settings) (next : Nat) :
    p.Harmless settings next := by
  have howns := h.arranged.joinsBelongToFilters_iff.mp hfilters
  -- The conditions hold when the copies are looked for.
  have hsorted : ∀ q n, p.applyPasses [.markNops, .simplifySorts] next = .ok (q, n) →
      q.WellFormed ∧ q.NamesInPlace ∧ q.FiltersOwnJoins := by
    intro q n hq
    obtain ⟨a, m, ha, hq⟩ := applyPasses_cons.mp hq
    obtain ⟨b, m', hb, hq⟩ := applyPasses_cons.mp hq
    cases (Fresh.pure_eq_ok.mp hq).1
    obtain ⟨haWf, haNames, haOwns⟩ :=
      markNops_keepsConditions h (Fresh.lift_eq_ok.mp ha).1 hnames howns
    exact simplifySorts_keepsConditions haWf (Fresh.lift_eq_ok.mp hb).1 haNames haOwns
  refine ⟨fun s hs => ?_, fun s hs => ?_⟩
  · obtain ⟨hwf, hnames, -⟩ := hsorted s.1 s.2 hs
    exact hnames.copiesGiveWay hwf
  · obtain ⟨a, m, ha, hs⟩ := Fresh.bind_eq_ok.mp hs
    have hsplit : p.applyPasses ([.markNops, .simplifySorts] ++ [.eliminateCopies, .foldFilters])
      next = .ok (a, m) := ha
    obtain ⟨b, n, hb, hsplit⟩ := applyPasses_append.mp hsplit
    obtain ⟨c, k, hc, hsplit⟩ := applyPasses_cons.mp hsplit
    obtain ⟨d, l, hd, hsplit⟩ := applyPasses_cons.mp hsplit
    cases (Fresh.pure_eq_ok.mp hsplit).1
    obtain ⟨hbWf, -, hbOwns⟩ := hsorted b n hb
    obtain ⟨hcWf, hcOwns⟩ :=
      eliminateCopies_filtersOwnJoins hbWf (Fresh.lift_eq_ok.mp hc).1 hbOwns
    obtain ⟨haWf, haOwns⟩ := foldFilters_filtersOwnJoins hcWf (Fresh.lift_eq_ok.mp hd).1 hcOwns
    have hkeeps := haWf.arranged.toOrdered.middlePasses_keepJoins (Subset.refl _) hs
    obtain ⟨hsWf, -⟩ := haWf.middlePasses_rootNames hs
    exact (hsWf.arranged.joinsBelongToFilters_iff.mpr
      (hkeeps.filtersOwnJoins haOwns)).chainsGiveWay hsWf s.2

end Plan

namespace Query

/-- Optimizing the bound plan of a text is harmless under the same conditions. -/
theorem harmless {env : Environment} {text : String} {bound : Query}
    (hbound : unoptimizedOfText env text = .ok bound) (hnames : bound.plan.NamesInPlace)
    (hfilters : bound.plan.JoinsBelongToFilters) : Harmless env text := by
  obtain ⟨j, next, hj, hbuild⟩ := unoptimizedOfText_eq_ok hbound
  intro s hs
  rw [Result.bind_ok hj, hbuild] at hs
  cases hs
  obtain ⟨hwf, -⟩ := boundOfDocument_wellFormed env _ j _ _ _ hbuild
  exact hwf.harmless hnames hfilters _ _

end Query

end QueryPlan
