import QueryPlan.Proofs.Scope.Repositioning
import QueryPlan.Proofs.Scope.Windows
import Mathlib.Data.List.Sort
/-!
# QueryPlan.Proofs.WindowNarrowing.Step

**One input narrowed.** A projection with a window function gets a narrow input exactly if it refers
to its input only, and to some of its columns but not to all (`Plan.Narrowable`). Then a step
succeeds and puts a projection to these columns right below it (`Plan.NarrowedAt`); otherwise it
leaves the plan alone (`Scoped.narrowWindow_cases`). References stay in sight, and no node from
before comes to have more or fewer columns.
-/

namespace QueryPlan

open List

variable {input : NodeId} {exprs : List Expr} {used : List Nat}

/-! ### Positions that are read -/

theorem pairwise_positionsRead : (positionsRead input exprs).Pairwise (· < ·) := by
  unfold positionsRead
  dsimp only
  split
  · refine (pairwise_mergeSort' (· ≤ ·) _).imp₂ (fun _ _ hle hne => Nat.lt_of_le_of_ne hle hne) ?_
    exact (mergeSort_perm _ _).nodup_iff.mpr (nodup_eraseDups _)
  · exact Pairwise.nil

/-- If positions are read at all, every column that is read belongs to the input, and each
position is one of them. -/
theorem mem_positionsRead {i : Nat} (hi : i ∈ positionsRead input exprs) :
    (∀ c ∈ exprs.flatMap Expr.columns, c.source = input) ∧
      ⟨input, i⟩ ∈ exprs.flatMap Expr.columns := by
  unfold positionsRead at hi
  dsimp only at hi
  split at hi
  · next hall =>
    simp only [all_eq_true, beq_iff_eq] at hall
    rw [mem_mergeSort, mem_eraseDups, mem_map] at hi
    obtain ⟨c, hc, rfl⟩ := hi
    refine ⟨hall, ?_⟩
    rw [← hall c hc]
    exact hc
  · exact absurd hi not_mem_nil

/-- If every reference is to the input, the positions that are read are those of the references. -/
theorem mem_positionsRead_iff (honly : ∀ c ∈ exprs.flatMap Expr.columns, c.source = input)
    {i : Nat} : i ∈ positionsRead input exprs ↔ ⟨input, i⟩ ∈ exprs.flatMap Expr.columns := by
  refine ⟨fun hi => (mem_positionsRead hi).2, fun hc => ?_⟩
  have hall : (exprs.flatMap Expr.columns).all (fun c => c.source == input) = true :=
    all_eq_true.mpr fun c hc => beq_iff_eq.mpr (honly c hc)
  unfold positionsRead
  dsimp only
  rw [if_pos hall, mem_mergeSort, mem_eraseDups]
  exact mem_map_of_mem hc

/-- Ascending positions below a width are all of them if there are as many. -/
theorem forall_mem_iff_length_eq {width : Nat} (hsorted : used.Pairwise (· < ·))
    (hlt : ∀ i ∈ used, i < width) : (∀ i < width, i ∈ used) ↔ used.length = width := by
  have hsub : used <+~ range width :=
    hsorted.nodup.subperm fun i hi => mem_range.mpr (hlt i hi)
  constructor
  · intro hall
    have hback : range width <+~ used :=
      nodup_range.subperm fun i hi => hall i (mem_range.mp hi)
    exact (hsub.antisymm hback).length_eq.trans length_range
  · intro hlength i hi
    have hperm := hsub.perm_of_length_le (by rw [length_range, hlength])
    exact hperm.mem_iff.mpr (mem_range.mpr hi)

/-! ### Inputs that may be narrow -/

namespace Plan

variable {p q : Plan} {id x : NodeId} {next next' : Nat}

/-- A projection with a window function refers to its input only: to some of its columns, listed in
ascending order, but not to all. -/
structure Narrowable (p : Plan) (id input : NodeId) (used : List Nat) : Prop where
  windowed : ∃ j, p.op id = .project j ∧ j.hasWindow = true
  inputs_eq : p.inputs id = [input]
  only : ∀ c ∈ (p.op id).columns, c.source = input
  ascending : used.Pairwise (· < ·)
  mem_iff : ∀ i, i ∈ used ↔ ⟨input, i⟩ ∈ (p.op id).columns
  used_ne_nil : used ≠ []
  unused : ∃ width, p.width input = .ok width ∧ ∃ i < width, i ∉ used

namespace Narrowable

/-- It depends on the projection and on the width of its input only. -/
theorem congr (h : p.Narrowable id input used) (hnode : q.node id = p.node id)
    (hwidth : q.width input = p.width input) : q.Narrowable id input used := by
  have hop := op_congr hnode
  refine ⟨hop ▸ h.windowed, inputs_congr hnode ▸ h.inputs_eq, fun c hc => ?_, h.ascending,
    fun i => ?_, h.used_ne_nil, hwidth ▸ h.unused⟩
  · exact h.only c (hop ▸ hc)
  · rw [h.mem_iff, hop]

variable (h : p.Narrowable id input used)
include h

theorem input_mem : input ∈ p.inputs id := h.inputs_eq ▸ mem_singleton_self input

/-- The positions are those that are read. -/
theorem eq_positionsRead {j : Project} (hop : p.op id = .project j) :
    used = positionsRead input j.exprs := by
  have honly : ∀ c ∈ j.exprs.flatMap Expr.columns, c.source = input := by
    have honly := h.only
    rwa [hop] at honly
  refine h.ascending.eq_of_mem_iff pairwise_positionsRead fun i => ?_
  rw [h.mem_iff, hop, mem_positionsRead_iff honly]
  rfl

end Narrowable

namespace Scoped

variable (h : p.Scoped) (hid : id ∈ p.order)
include h hid

/-- The positions are those of columns. -/
theorem lt_columnCount_of_narrowable (hnarrow : p.Narrowable id input used) :
    ∀ i ∈ used, i < p.columnCount input := fun i hi =>
  (Plan.mem_columnsOf.mp (h.mem_columnsOf hid ((hnarrow.mem_iff i).mp hi))).2

/-- The input does not join, for a join shows columns of its inputs only. -/
theorem isJoin_of_narrowable (hnarrow : p.Narrowable id input used) :
    (p.op input).isJoin = false := by
  obtain ⟨j, hop, -⟩ := hnarrow.windowed
  obtain ⟨i, hi⟩ := exists_mem_of_ne_nil _ hnarrow.used_ne_nil
  have hlive := h.arranged.mem_of_input hid hnarrow.input_mem
  have hsee := (Plan.mem_columnsOf.mp (h.mem_columnsOf hid ((hnarrow.mem_iff i).mp hi))).1
  rw [reads_of_input (by rw [hop]; rfl) hnarrow.inputs_eq] at hsee
  exact h.arranged.isJoin_of_mem_exposed_self hlive hsee

/-- What the pass looks at tells whether an input may be narrow. -/
theorem narrowable_iff {j : Project} (hop : p.op id = .project j)
    (hinputs : p.inputs id = [input]) :
    (∃ used, p.Narrowable id input used) ↔ j.hasWindow = true ∧
      positionsRead input j.exprs ≠ [] ∧
        (positionsRead input j.exprs).length ≠ p.columnCount input := by
  have hlive := h.arranged.mem_of_input hid (hinputs ▸ mem_singleton_self input)
  constructor
  · rintro ⟨used, hnarrow⟩
    obtain ⟨j', hop', hwindow⟩ := hnarrow.windowed
    obtain rfl : j = j' := Operator.project.inj (hop.symm.trans hop')
    obtain ⟨width, hwidth, i, hi, hunused⟩ := hnarrow.unused
    obtain rfl := Except.ok.inj (hwidth.symm.trans (h.arranged.width_eq hlive))
    rw [← hnarrow.eq_positionsRead hop]
    refine ⟨hwindow, hnarrow.used_ne_nil, fun hlength => hunused ?_⟩
    exact (forall_mem_iff_length_eq hnarrow.ascending
      (h.lt_columnCount_of_narrowable hid hnarrow)).mpr hlength i hi
  · rintro ⟨hwindow, hread, hlength⟩
    obtain ⟨i, hi⟩ := exists_mem_of_ne_nil _ hread
    have honly := (mem_positionsRead hi).1
    have hmem : ∀ i, i ∈ positionsRead input j.exprs ↔ ⟨input, i⟩ ∈ (p.op id).columns := fun i => by
      rw [mem_positionsRead_iff honly, hop]
      rfl
    refine ⟨_, ⟨j, hop, hwindow⟩, hinputs, fun c hc => ?_, pairwise_positionsRead, hmem, hread,
      _, h.arranged.width_eq hlive, ?_⟩
    · rw [hop] at hc
      exact honly c hc
    · by_contra hall
      push Not at hall
      exact hlength ((forall_mem_iff_length_eq pairwise_positionsRead fun i hi =>
        (Plan.mem_columnsOf.mp (h.mem_columnsOf hid ((hmem i).mp hi))).2).mp hall)

end Scoped

/-! ### The step -/

/-- A projection got another one right below it, to the columns that it refers to. -/
structure NarrowedAt (p q : Plan) (id input : NodeId) (used : List Nat) : Prop where
  inSight : p.Scoped
  live : id ∈ p.order
  narrowable : p.Narrowable id input used
  arranged : q.Arranged q.order
  order_eq : ∃ pre post, p.order = pre ++ id :: post ∧ q.order = pre ++ p.nextId :: id :: post
  size_eq : q.arena.size = p.arena.size + 1
  node_new : ∃ buildId, q.node p.nextId = narrowing buildId input used
  node_self : q.node id = (p.node id).moved input p.nextId (some (.ofKept used))
    (ColumnRef.range p.nextId used.length)
  node_other : ∀ x ∈ p.order, x ≠ id → q.node x = p.node x

/-- A projection with an input that may be narrow gets a narrow one. -/
theorem Scoped.insertNarrowing_ok (h : p.Scoped) (hid : id ∈ p.order)
    (hnarrow : p.Narrowable id input used) (next : Nat) :
    ∃ q, p.insertNarrowing id input used next = .ok (q, next + 1) ∧
      NarrowedAt p q id input used := by
  obtain ⟨j, hop, -⟩ := hnarrow.windowed
  obtain ⟨r, hr⟩ := insertBefore_ok hid (narrowing next input used)
  obtain ⟨pre, post, f⟩ := h.arranged.toOrdered.inserted_before hr
  have hinput : input ∈ pre := (f.order_before ▸ h.arranged).inputs_before hnarrow.input_mem
  have harranged : r.Arranged r.order :=
    f.arranged h.arranged rfl fun i hi => mem_singleton.mp hi ▸ hinput
  have hnew : p.nextId ∈ r.order := f.mem_order.mpr (.inl rfl)
  have hself : id ∈ r.order := f.mem_order.mpr (.inr hid)
  have hne : p.nextId ∉ [id] := by simpa using (ne_nextId (h.inArena hid)).symm
  have hcount : r.columnCount p.nextId = used.length := by
    rw [harranged.columnCount_of_own hnew (by rw [f.op_new]; rfl)]
    exact length_map _
  have hstand : r.standIns id input p.nextId = ColumnRef.range p.nextId used.length := by
    have hexposed : r.exposed p.nextId = [p.nextId] :=
      exposed_of_not_join (by rw [f.op_new]; rfl)
    rw [standIns, hexposed, ite_self, columnsOf, flatMap_singleton, hcount]
  have hred : ∃ q, r.replaceInput id input p.nextId (some (.ofKept used)) = .ok q := by
    refine ⟨_, replaceInput_eq_ok.mpr ⟨_, replacementColumns_eq harranged hnew id,
      fun c hc => exists_redirectColumn fun _ => ?_, fun _ _ i hi => ?_, rfl⟩⟩
    · rw [f.op_eq hid] at hc
      rw [length_standIns harranged hnew, hcount]
      refine (ColumnMap.follows_ofKept used).mappedPosition_ok input ((hnarrow.mem_iff _).mpr ?_)
      rw [← hnarrow.only c hc]
      exact hc
    · rw [f.op_eq hid, hop] at hi
      exact absurd hi not_mem_nil
  obtain ⟨q, hq⟩ := hred
  have hred := replaceInput_redirection harranged hnew (harranged.inArena id hself) hq
  have hbefore : ∀ n ∈ [id], input ∈ r.inputs n → [p.nextId, n] <+ r.order := by
    intro n hn _
    rw [mem_singleton.mp hn, f.order_eq, append_cons]
    exact pair_sublist_of_mem (by simp) mem_cons_self
  refine ⟨q, ?_, h, hid, hnarrow, hred.order_eq ▸ hred.arranged harranged hbefore,
    ⟨pre, post, f.order_before, hred.order_eq.trans f.order_eq⟩, hred.size_eq.trans f.size_eq,
    ⟨next, (hred.node_other _ hne).trans f.node_new⟩, ?_, fun x hx hxid => ?_⟩
  · rw [insertNarrowing, Fresh.bind_ok (Fresh.freshId_eq_ok.mpr ⟨rfl, rfl⟩)]
    exact (Fresh.bind_ok (Fresh.lift_ok hr)).trans (Fresh.lift_ok hq)
  · rw [hred.node_eq id (mem_singleton_self id), hstand, f.node_eq id hid]
  · rw [hred.node_other x (by simpa using hxid), f.node_eq x hx]

/-- A step narrows the input of a node if it may be narrow, and leaves the plan alone otherwise. -/
theorem Scoped.narrowWindow_cases (h : p.Scoped) (hid : id ∈ p.order) (next : Nat) :
    (p.narrowWindow id next = .ok (p, next) ∧ ∀ input used, ¬ p.Narrowable id input used) ∨
      ∃ input used q, p.narrowWindow id next = .ok (q, next + 1) ∧
        NarrowedAt p q id input used := by
  unfold narrowWindow
  cases hop : p.op id with
  | project j =>
      dsimp only
      obtain ⟨input, hinputs⟩ : ∃ input, p.inputs id = [input] := by
        have harity := h.arranged.arity id hid
        rw [hop] at harity
        exact Arity.exactly_one_admits harity
      have hlive := h.arranged.mem_of_input hid (hinputs ▸ mem_singleton_self input)
      have hiff := h.narrowable_iff hid hop hinputs
      have hkeep : (¬ ∃ used, p.Narrowable id input used) → ∀ input used,
          ¬ p.Narrowable id input used := fun hnone i used hnarrow => by
        obtain rfl := singleton_inj.mp (hinputs.symm.trans hnarrow.inputs_eq)
        exact hnone ⟨used, hnarrow⟩
      split
      · next hwindow =>
        exact .inl ⟨rfl, hkeep fun hnarrow => by simp [(hiff.mp hnarrow).1] at hwindow⟩
      · next hwindow =>
        rw [Fresh.bind_ok (Fresh.lift_ok (Node.singleInput_eq_ok.mpr hinputs))]
        split
        · next hread =>
          exact .inl ⟨rfl, hkeep fun hnarrow =>
            (hiff.mp hnarrow).2.1 (isEmpty_iff.mp hread)⟩
        · next hread =>
          rw [Fresh.bind_ok (Fresh.lift_ok (h.arranged.width_eq hlive))]
          split
          · next hlength =>
            exact .inl ⟨rfl, hkeep fun hnarrow =>
              (hiff.mp hnarrow).2.2 (beq_iff_eq.mp hlength)⟩
          · next hlength =>
            obtain ⟨used, hnarrow⟩ := hiff.mpr ⟨by simpa using hwindow, by simpa using hread,
              by simpa using hlength⟩
            obtain rfl := hnarrow.eq_positionsRead hop
            obtain ⟨q, hq, f⟩ := h.insertNarrowing_ok hid hnarrow next
            exact .inr ⟨input, _, q, hq, f⟩
  | _ =>
      refine .inl ⟨rfl, fun input used hnarrow => ?_⟩
      obtain ⟨j, hproject, -⟩ := hnarrow.windowed
      rw [hop] at hproject
      cases hproject

namespace NarrowedAt

variable (f : NarrowedAt p q id input used)
include f

theorem mem_order : x ∈ q.order ↔ x = p.nextId ∨ x ∈ p.order := by
  obtain ⟨pre, post, hbefore, hafter⟩ := f.order_eq
  rw [hafter, hbefore, mem_middle_iff]

theorem op_new : q.op p.nextId =
    .project (.plain (used.map fun i => .column ⟨input, i⟩) (used.map fun _ => "")) := by
  obtain ⟨buildId, hnode⟩ := f.node_new
  rw [Plan.op, hnode]
  rfl

theorem inputs_new : q.inputs p.nextId = [input] := by
  obtain ⟨buildId, hnode⟩ := f.node_new
  rw [inputs, hnode]
  rfl

theorem inputs_self : q.inputs id = [p.nextId] := by
  rw [inputs, f.node_self, Node.inputs_moved]
  change (p.inputs id).map _ = _
  rw [f.narrowable.inputs_eq, map_singleton, NodeId.replaced_self]

theorem op_other (hx : x ∈ p.order) (hxid : x ≠ id) : q.op x = p.op x :=
  op_congr (f.node_other x hx hxid)

theorem inputs_other (hx : x ∈ p.order) (hxid : x ≠ id) : q.inputs x = p.inputs x :=
  inputs_congr (f.node_other x hx hxid)

theorem layout_eq (hx : x ∈ p.order) : (q.op x).layout = (p.op x).layout := by
  by_cases hxid : x = id
  · rw [hxid, Plan.op, f.node_self, Node.layout_moved]
    rfl
  · rw [f.op_other hx hxid]

theorem isJoin_eq (hx : x ∈ p.order) : (q.op x).isJoin = (p.op x).isJoin := by
  rw [Bool.eq_iff_iff, ← Operator.layout_eq_all_iff, ← Operator.layout_eq_all_iff, f.layout_eq hx]

theorem isJoin_self : (p.op id).isJoin = false := by
  obtain ⟨j, hop, -⟩ := f.narrowable.windowed
  rw [hop]
  rfl

/-- The nodes from before have as many columns as before. -/
theorem columnCount_eq : ∀ x ∈ p.order, q.columnCount x = p.columnCount x := by
  have hmem : ∀ x ∈ p.order, x ∈ q.order := fun x hx => f.mem_order.mpr (.inr hx)
  refine f.inSight.arranged.induction fun x hx ih => ?_
  rw [f.arranged.columnCount_eq (hmem x hx), f.inSight.arranged.columnCount_eq hx, f.layout_eq hx]
  by_cases hxid : x = id
  · obtain ⟨j, hop, -⟩ := f.narrowable.windowed
    rw [hxid, hop]
    rfl
  · rw [f.inputs_other hx hxid, map_congr_left ih]

theorem columnCount_new : q.columnCount p.nextId = used.length := by
  rw [f.arranged.columnCount_of_own (f.mem_order.mpr (.inl rfl)) (by rw [f.op_new]; rfl)]
  exact length_map _

/-- References become those to the columns of the new projection that forward their columns. -/
theorem redirectColumn_eq {c : ColumnRef} (hc : c ∈ (p.op id).columns) :
    ∃ k, used[k]? = some c.index ∧
      redirectColumn input p.nextId (some (.ofKept used))
        (ColumnRef.range p.nextId used.length) c = .ok ⟨p.nextId, k⟩ := by
  have hsource := f.narrowable.only c hc
  have hused : c.index ∈ used := (f.narrowable.mem_iff _).mpr (hsource ▸ hc)
  obtain ⟨k, hk, hlt⟩ := (ColumnMap.follows_ofKept used).mappedPosition_ok input hused
  refine ⟨k, (ColumnMap.follows_ofKept used).mappedPosition hk, ?_⟩
  rw [redirectColumn, if_pos hsource, Result.bind_ok hk]
  exact Result.ofOption_eq_ok.mpr (ColumnRef.getElem?_range.mpr ⟨hlt, rfl⟩)

/-- The projection refers to columns of the new one. -/
theorem columns_self {c : ColumnRef} :
    c ∈ (q.op id).columns ↔ ∃ d ∈ (p.op id).columns, c.source = p.nextId ∧
      used[c.index]? = some d.index := by
  have hcolumns : (q.op id).columns = (p.op id).columns.map fun d => Result.valueOr d
      (redirectColumn input p.nextId (some (.ofKept used))
        (ColumnRef.range p.nextId used.length) d) := by
    rw [Plan.op, f.node_self, Node.columns_moved]
    rfl
  rw [hcolumns, mem_map]
  refine exists_congr fun d => and_congr_right fun hd => ?_
  obtain ⟨k, hk, hredirect⟩ := f.redirectColumn_eq hd
  rw [hredirect]
  constructor
  · rintro rfl
    exact ⟨rfl, hk⟩
  · rintro ⟨hsource, hindex⟩
    -- Positions are listed once.
    have hsame : c.index = k := by
      obtain ⟨hlt, hget⟩ := List.getElem?_eq_some_iff.mp hindex
      obtain ⟨hlt', hget'⟩ := List.getElem?_eq_some_iff.mp hk
      exact f.narrowable.ascending.nodup.getElem_inj_iff.mp (hget.trans hget'.symm)
    obtain ⟨source, index⟩ := c
    obtain rfl : source = p.nextId := hsource
    obtain rfl : index = k := hsame
    rfl

theorem exposed_eq (hx : x ∈ p.order) : q.exposed x = p.exposed x := by
  by_cases hxid : x = id
  · subst hxid
    rw [exposed_of_not_join f.isJoin_self,
      exposed_of_not_join ((f.isJoin_eq hx).trans f.isJoin_self)]
  · rw [exposed, exposed, f.op_other hx hxid, f.inputs_other hx hxid]

/-- References stay in sight. -/
theorem scoped_narrowed : q.Scoped := by
  refine scoped_of_reads f.arranged fun x hx c hc => ?_
  have hjoinNew : (q.op p.nextId).isJoin = false := by rw [f.op_new]; rfl
  rcases f.mem_order.mp hx with rfl | hx
  · -- The new projection reads the input, which shows its own columns.
    have hlive := f.inSight.arranged.mem_of_input f.live f.narrowable.input_mem
    rw [f.op_new, Operator.columns, Operator.exprs, Project.plain, flatMap_map] at hc
    obtain ⟨i, hi, hc⟩ := mem_flatMap.mp hc
    obtain rfl := mem_singleton.mp hc
    rw [reads_of_input hjoinNew f.inputs_new, f.exposed_eq hlive,
      exposed_of_not_join (f.inSight.isJoin_of_narrowable f.live f.narrowable),
      f.columnCount_eq _ hlive]
    exact ⟨mem_singleton_self input,
      f.inSight.lt_columnCount_of_narrowable f.live f.narrowable i hi⟩
  · by_cases hxid : x = id
    · subst hxid
      obtain ⟨d, -, hsource, hindex⟩ := f.columns_self.mp hc
      rw [reads_of_input ((f.isJoin_eq hx).trans f.isJoin_self) f.inputs_self,
        exposed_of_not_join hjoinNew, hsource, f.columnCount_new]
      exact ⟨mem_singleton_self _, (List.getElem?_eq_some_iff.mp hindex).1⟩
    · have hreads : q.reads x = p.reads x := by
        rw [reads, reads, f.op_other hx hxid, f.inputs_other hx hxid, flatMap_congr fun i hi =>
          f.exposed_eq (f.inSight.arranged.mem_of_input hx hi)]
      rw [f.op_other hx hxid] at hc
      obtain ⟨hsee, hlt⟩ := Plan.mem_columnsOf.mp (f.inSight.mem_columnsOf hx hc)
      rw [hreads, f.columnCount_eq _ (f.inSight.arranged.reads_subset hx hsee)]
      exact ⟨hsee, hlt⟩

theorem wellFormed (h : p.WellFormed) : q.WellFormed where
  arranged := f.arranged
  inScope := f.scoped_narrowed.inScope
  fieldsMatch x hx := by
    rcases f.mem_order.mp hx with rfl | hx
    · rw [f.op_new]
      simp [Operator.FieldsMatch, Project.plain]
    · by_cases hxid : x = id
      · rw [hxid, Plan.op, f.node_self]
        exact Node.fieldsMatch_moved _ _ _ _ _ (h.fieldsMatch id f.live)
      · rw [f.op_other hx hxid]
        exact h.fieldsMatch x hx
  bound x hx e he := by
    rcases f.mem_order.mp hx with rfl | hx
    · rw [f.op_new] at he
      obtain ⟨i, -, rfl⟩ := mem_map.mp he
      rfl
    · by_cases hxid : x = id
      · rw [hxid, Plan.op, f.node_self, Node.exprs_moved] at he
        obtain ⟨d, hd, rfl⟩ := mem_map.mp he
        rw [Expr.hasPositional_mapColumns]
        exact h.bound id f.live d hd
      · rw [f.op_other hx hxid] at he
        exact h.bound x hx e he

end NarrowedAt

/-- What a step that succeeded has done. -/
theorem Scoped.narrowWindow_inv (h : p.Scoped) (hid : id ∈ p.order)
    (hq : p.narrowWindow id next = .ok (q, next')) :
    q = p ∨ ∃ input used, NarrowedAt p q id input used := by
  rcases h.narrowWindow_cases hid next with ⟨hok, -⟩ | ⟨input, used, r, hok, f⟩
  · cases hq.symm.trans hok
    exact .inl rfl
  · cases hq.symm.trans hok
    exact .inr ⟨input, used, f⟩

theorem narrowWindow_wellFormed (h : p.WellFormed) (hid : id ∈ p.order)
    (hq : p.narrowWindow id next = .ok (q, next')) : q.WellFormed ∧ p.order ⊆ q.order := by
  rcases h.toScoped.narrowWindow_inv hid hq with rfl | ⟨input, used, f⟩
  · exact ⟨h, Subset.refl _⟩
  · exact ⟨f.wellFormed h, fun x hx => f.mem_order.mpr (.inr hx)⟩

theorem narrowWindows_wellFormed (h : p.WellFormed)
    (hq : p.narrowWindows next = .ok (q, next')) : q.WellFormed :=
  h.of_insertions hq fun _ _ _ _ _ hr hid hstep => narrowWindow_wellFormed hr hid hstep

end Plan

end QueryPlan
