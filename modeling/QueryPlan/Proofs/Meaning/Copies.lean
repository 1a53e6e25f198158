import QueryPlan.Proofs.Meaning.Selection
import QueryPlan.Proofs.Scope.Removal
import QueryPlan.Proofs.Scope.Repositioning
/-!
# QueryPlan.Proofs.Meaning.Copies

**Taking out copies keeps the meaning.** A copy has the rows of its input, with the columns in some
order (`Plan.IsCopy.rows_eq`). What reads it by references follows the columns, and what depends on
their order is left alone by the pass, joins excepted. So every node that is left has the rows it
had, if the joins over a copy find its columns in place and do not read its input as well
(`Plan.eliminateCopies_keeps_rows`).
-/

namespace QueryPlan

open List

namespace Plan

variable {V : Type} [DecidableEq V] {M : Meaning V} {p q r : Plan} {id input x : NodeId}
  {places : List Nat}

/-! ### Copies -/

/-- A node is a copy of its input: every column is the one of the input at the given place. -/
structure IsCopy (p : Plan) (id input : NodeId) (places : List Nat) (j : Project) : Prop where
  op_eq : p.op id = .project j
  inputs_eq : p.inputs id = [input]
  isJoin_input : (p.op input).isJoin = false
  exprs_eq : j.exprs = places.map fun k => .column ⟨input, k⟩

/-- Columns of one node are given by their places. -/
theorem exists_places {es : List Expr} (h : ∀ e ∈ es, ∃ c, e = .column c ∧ c.source = input) :
    ∃ places : List Nat, es = places.map fun k => .column ⟨input, k⟩ := by
  induction es with
  | nil => exact ⟨[], rfl⟩
  | cons e es ih =>
      obtain ⟨⟨c, rfl, rfl⟩, hes⟩ := forall_mem_cons.mp h
      obtain ⟨places, rfl⟩ := ih hes
      exact ⟨c.index :: places, rfl⟩

theorem exists_isCopy (h : p.isIdentity id = .ok true) : ∃ j input places, p.IsCopy id input places j := by
  obtain ⟨j, input, hop, hinputs, hjoin, -, hcolumns⟩ := isIdentity_eq_ok_true h
  obtain ⟨places, hplaces⟩ := exists_places hcolumns
  exact ⟨j, input, places, hop, hinputs, hjoin, hplaces⟩

namespace IsCopy

variable {j : Project} (hc : p.IsCopy id input places j)
include hc

/-- The mapping of a copy says where its columns are in the input. -/
theorem mem_forwardMap {i k : Nat} : (i, k) ∈ forwardMap j ↔ places[i]? = some k := by
  unfold forwardMap
  rw [hc.exprs_eq, mem_filterMap]
  simp only [Prod.exists, mem_zipIdx_iff_getElem?, getElem?_map, Option.map_eq_some_iff]
  constructor
  · rintro ⟨_, _, ⟨k, hk, rfl⟩, ⟨⟩⟩
    exact hk
  · exact fun hk => ⟨_, i, ⟨k, hk, rfl⟩, rfl⟩

theorem mappedPosition_eq_ok {i k : Nat}
    (h : mappedPosition id (some (forwardMap j)) i = .ok k) : places[i]? = some k := by
  obtain ⟨before, after, hmap, -⟩ := lookup_eq_some_iff.mp (Result.ofOption_eq_ok.mp h)
  exact hc.mem_forwardMap.mp (hmap ▸ mem_append_right _ mem_cons_self)

theorem layout_eq : (p.op id).layout = .own places.length j.fields := by
  rw [hc.op_eq]
  simp [Operator.layout, hc.exprs_eq]

theorem isJoin_eq : (p.op id).isJoin = false := by
  rw [hc.op_eq]
  rfl

theorem reads_eq : p.reads id = [input] := by
  rw [reads_of_not_join hc.isJoin_eq, hc.inputs_eq, flatMap_singleton,
    exposed_of_not_join hc.isJoin_input]

section

variable (h : p.Scoped) (hid : id ∈ p.order)
include h hid

theorem lt_of_mem {k : Nat} (hk : k ∈ places) : k < p.columnCount input := by
  refine (mem_columnsOf.mp (h.mem_columnsOf hid (c := ⟨input, k⟩) ?_)).2
  rw [hc.op_eq]
  refine Operator.mem_columns.mpr ⟨.column ⟨input, k⟩, ?_, by simp [Expr.columns, Expr.leaves, Leaf.column?]⟩
  rw [Operator.exprs, hc.exprs_eq]
  exact mem_map_of_mem hk

/-- A copy makes rows by selecting columns at their places. -/
theorem node_eq (widths : List Nat) (rows : Rows V) :
    M.node (p.op id) (p.columnsOf (p.reads id)) widths [rows] = rows.map (M.select places) := by
  have hexprs : j.exprs = (places.map (ColumnRef.mk input)).map Expr.column := by
    rw [hc.exprs_eq, map_map]
    rfl
  rw [hc.reads_eq, hc.op_eq]
  change M.projected j.exprs _ = _
  rw [hexprs, Meaning.projected_columns, headD_cons, map_map]
  refine map_congr_left fun row _ => ?_
  rw [Function.comp_apply, map_map]
  refine map_congr_left fun k hk => congrArg (M.cell row) ?_
  exact idxOf_columnsOf_cons (hc.lt_of_mem h hid hk)

/-- A copy has the rows of its input, with the columns at their places. -/
theorem rows_eq : p.rows M id = (p.rows M input).map (M.select places) := by
  rw [h.arranged.toOrdered.rows_eq hid, hc.inputs_eq]
  exact hc.node_eq h hid _ _

end

end IsCopy

/-! ### What reads a copy -/

/-- Everything that read a copy reads its input. -/
structure Forwarded (p r : Plan) (id input : NodeId) (places : List Nat) (j : Project) : Prop
    extends Redirection p r id input (some (forwardMap j)) (p.order.filter fun n => n != input) where
  isCopy : p.IsCopy id input places j
  wellFormed : p.WellFormed
  live : id ∈ p.order
  columnCount_input : p.columnCount input = p.columnCount id
  /-- No position is refused. -/
  placed : ∀ n ∈ p.order, id ∈ p.inputs n → ∀ i ∈ (p.op n).positions,
    ∃ k, mappedPosition id (some (forwardMap j)) i = .ok k

/-- Taking out a copy lets everything read its input. -/
theorem WellFormed.forwarded {j : Project} (h : p.WellFormed) (hid : id ∈ p.order)
    (hc : p.IsCopy id input places j) (hcount : p.columnCount input = p.columnCount id)
    (hr : p.replaceInputEverywhere id input (some (forwardMap j)) = .ok r) :
    Forwarded p r id input places j where
  toRedirection := h.redirection_to_input hid (hc.inputs_eq ▸ mem_singleton_self input) hr
  isCopy := hc
  wellFormed := h
  live := hid
  columnCount_input := hcount
  placed n hn hread i hi := by
    refine foldlM_replaceInput_placed hr (h.nodup.filter _)
      (fun n hn => h.inArena (mem_filter.mp hn).1) n (mem_filter.mpr ⟨hn, ?_⟩) hread rfl i hi
    rw [bne_iff_ne]
    rintro rfl
    exact h.arranged.not_reads_of_input hid (hc.inputs_eq ▸ mem_singleton_self n) hread

namespace Forwarded

variable {j : Project} (f : Forwarded p r id input places j)
include f

theorem input_mem : input ∈ p.inputs id := f.isCopy.inputs_eq ▸ mem_singleton_self input

theorem input_ne : input ≠ id :=
  ne_of_pair f.wellFormed.nodup (f.wellFormed.arranged.before id f.live input f.input_mem)

theorem input_live : input ∈ p.order := f.wellFormed.arranged.mem_of_input f.live f.input_mem

theorem not_reads_of_input : id ∉ p.inputs input :=
  f.wellFormed.arranged.not_reads_of_input f.live f.input_mem

theorem not_refers_of_input : id ∉ p.reads input := by
  have h := f.wellFormed.arranged
  intro hread
  rcases mem_inputs_of_reads hread with hread | ⟨i, hi, -, hread⟩
  · exact f.not_reads_of_input hread
  · have hlive := h.mem_of_input f.input_live hi
    refine not_pair_swap h.nodup (h.before id f.live input f.input_mem) ?_
    exact pair_sublist_trans h.nodup (h.before i hlive id hread) (h.before input f.input_live i hi)

omit f in
theorem mem_changed (hx : x ∈ p.order) (hne : x ≠ input) :
    x ∈ p.order.filter fun n => n != input :=
  mem_filter.mpr ⟨hx, bne_iff_ne.mpr hne⟩

theorem inputs_forwarded (hx : x ∈ p.order) :
    r.inputs x = (p.inputs x).map (id.replaced input) := by
  by_cases hne : x = input
  · rw [hne, f.inputs_other (by simp),
      NodeId.map_replaced_of_not_mem input f.not_reads_of_input]
  · exact f.inputs_eq (mem_changed hx hne)

theorem reads_forwarded (hx : x ∈ p.order) :
    r.reads x = (p.reads x).map (id.replaced input) := by
  refine reads_map (f.op_isJoin x) (f.inputs_forwarded hx) fun _ i hi => ?_
  have hlive := f.wellFormed.arranged.mem_of_input hx hi
  by_cases hcopy : i = id
  · rw [hcopy, NodeId.replaced_self, exposed_of_not_join f.isCopy.isJoin_eq, map_singleton,
      NodeId.replaced_self,
      exposed_of_not_join ((f.op_isJoin input).trans f.isCopy.isJoin_input)]
  · rw [NodeId.replaced_of_ne _ hcopy, exposed, exposed, f.op_isJoin]
    split
    · exact f.inputs_forwarded hlive
    · rw [map_singleton, NodeId.replaced_of_ne _ hcopy]

theorem columnCount_eq (hx : x ∈ p.order) : r.columnCount x = p.columnCount x := by
  have h := f.wellFormed.arranged
  refine f.columnCount_of_eq h (f.arranged h fun n hn hread => ?_) f.columnCount_input x hx
  exact pair_sublist_trans f.wellFormed.nodup (h.before id f.live input f.input_mem)
    (h.before n (mem_filter.mp hn).1 id hread)

theorem columnCount_replaced (hx : x ∈ p.order) :
    r.columnCount (id.replaced input x) = p.columnCount x := by
  by_cases hcopy : x = id
  · rw [hcopy, NodeId.replaced_self, f.columnCount_eq f.input_live, f.columnCount_input]
  · rw [NodeId.replaced_of_ne _ hcopy, f.columnCount_eq hx]

theorem columnCounts_forwarded (hx : x ∈ p.order) :
    (r.inputs x).map r.columnCount = (p.inputs x).map p.columnCount := by
  rw [f.inputs_forwarded hx, map_map]
  exact map_congr_left fun i hi =>
    f.columnCount_replaced (f.wellFormed.arranged.mem_of_input hx hi)

theorem columnsOf_forwarded (hx : x ∈ p.order) : r.columnsOf (r.reads x) =
    (p.columnsOf (p.reads x)).map (ColumnRef.replaced id input) := by
  rw [f.reads_forwarded hx]
  exact columnsOf_map fun i hi =>
    f.columnCount_replaced (f.wellFormed.arranged.reads_subset hx hi)

/-! ### References -/

/-- A reference to the copy becomes one to the column of the input at its place. -/
theorem valueOr_redirectColumn (hx : x ∈ p.order) (hne : x ≠ input) {c : ColumnRef}
    (hc : c ∈ (p.op x).columns) (hsource : c.source = id) :
    ∃ k, places[c.index]? = some k ∧ Result.valueOr c
      (redirectColumn id input (some (forwardMap j)) (p.standIns x id input) c) = ⟨input, k⟩ := by
  obtain ⟨d, hd⟩ := f.found x (mem_changed hx hne) c hc
  have hstand : p.standIns x id input = ColumnRef.range input (p.columnCount input) := by
    rw [standIns, exposed_of_not_join f.isCopy.isJoin_input, ite_self, columnsOf,
      flatMap_singleton]
  rw [hd, Result.valueOr]
  rw [redirectColumn, if_pos hsource, hstand, Result.bind_eq_ok] at hd
  obtain ⟨k, hk, hd⟩ := hd
  refine ⟨k, f.isCopy.mappedPosition_eq_ok hk, ?_⟩
  exact (ColumnRef.getElem?_range.mp (Result.ofOption_eq_ok.mp hd)).2

theorem op_of_reads (hx : x ∈ p.order) (hread : id ∈ p.inputs x) :
    r.op x = ((p.op x).mapExprs (Expr.mapColumns fun c => Result.valueOr c
      (redirectColumn id input (some (forwardMap j)) (p.standIns x id input) c))).mapPositions
        fun i => Result.valueOr i (mappedPosition id (some (forwardMap j)) i) := by
  have hne : x ≠ input := by
    rintro rfl
    exact f.not_reads_of_input hread
  rw [Plan.op, f.node_eq x (mem_changed hx hne), Node.moved]
  exact if_pos (by simpa using (show id ∈ (p.node x).inputs from hread))

/-- A node that neither reads the copy nor refers to it stays as it is. -/
theorem node_of_unread (hx : x ∈ p.order) (hread : id ∉ p.inputs x) (hrefer : id ∉ p.reads x) :
    r.node x = p.node x := by
  by_cases hne : x = input
  · exact f.node_other x (by simp [hne])
  · rw [f.node_eq x (mem_changed hx hne)]
    refine moved_eq_self hread fun c hc hsource => hrefer ?_
    exact hsource ▸ (f.wellFormed.reads_of_mem hx hc).1

/-! ### Copies with the columns in place -/

section InPlace

variable (hplaces : ∀ i k : Nat, places[i]? = some k → i = k)
include hplaces

/-- References name the same column of the input. -/
theorem op_inPlace (hx : x ∈ p.order) : r.op x = (p.op x).mapExprs
    (Expr.mapColumns (ColumnRef.replaced id input)) := by
  by_cases hne : x = input
  · rw [hne, f.op_other (by simp)]
    refine (Operator.mapExprs_id _).symm.trans (Operator.mapExprs_congr fun e he => ?_)
    refine (Expr.mapColumns_id e).symm.trans (Expr.mapColumns_congr fun c hc => ?_)
    have hsource := (f.wellFormed.reads_of_mem f.input_live
      (Operator.mem_columns.mpr ⟨e, he, hc⟩)).1
    rw [ColumnRef.replaced, NodeId.replaced_of_ne input fun heq : c.source = id => f.not_refers_of_input (heq ▸ hsource)]
  have hcolumns : (p.op x).mapExprs (Expr.mapColumns fun c => Result.valueOr c
      (redirectColumn id input (some (forwardMap j)) (p.standIns x id input) c)) =
      (p.op x).mapExprs (Expr.mapColumns (ColumnRef.replaced id input)) := by
    refine Operator.mapExprs_congr fun e he => Expr.mapColumns_congr fun c hc => ?_
    by_cases hsource : c.source = id
    · obtain ⟨k, hk, hvalue⟩ := f.valueOr_redirectColumn hx hne
        (Operator.mem_columns.mpr ⟨e, he, hc⟩) hsource
      rw [hvalue, ColumnRef.replaced, hsource, NodeId.replaced_self, hplaces _ _ hk]
    · rw [redirectColumn_of_ne hsource, ColumnRef.replaced, NodeId.replaced_of_ne _ hsource]
      rfl
  by_cases hread : id ∈ p.inputs x
  · rw [f.op_of_reads hx hread, hcolumns]
    refine Operator.mapPositions_eq_self fun i hi => ?_
    rw [Operator.positions_mapExprs] at hi
    obtain ⟨k, hk⟩ := f.placed x hx hread i hi
    rw [hk]
    exact (hplaces i k (f.isCopy.mappedPosition_eq_ok hk)).symm
  · rw [← hcolumns, Plan.op, f.node_eq x (mem_changed hx hne), Node.moved]
    exact if_neg (by simpa using (show id ∉ (p.node x).inputs from hread))

omit [DecidableEq V] hplaces in
/-- If no join reads the copy and the input, no node with references sees both. -/
theorem not_reads_both (hx : x ∈ p.order) {c : ColumnRef} (hc : c ∈ (p.op x).columns)
    (hjoins : ∀ n ∈ p.order, (p.op n).isJoin = true → id ∈ p.inputs n → input ∉ p.inputs n)
    (hread : id ∈ p.reads x) : input ∉ p.reads x := by
  cases hjoin : (p.op x).isJoin with
  | true =>
      rw [reads_of_join hjoin] at hread ⊢
      exact hjoins x hx hjoin hread
  | false =>
      obtain ⟨i, hi, -⟩ := f.wellFormed.input_of_arity_one hx (Operator.arity_of_mem_columns hc hjoin)
      have hlive := f.wellFormed.arranged.mem_of_input hx (hi ▸ mem_singleton_self i)
      rw [reads_of_input hjoin hi] at hread ⊢
      cases hiJoin : (p.op i).isJoin with
      | true =>
          rw [exposed_of_join hiJoin] at hread ⊢
          exact hjoins i hlive hiJoin hread
      | false =>
          rw [exposed_of_not_join hiJoin, mem_singleton] at hread ⊢
          exact hread ▸ f.input_ne

/-- The copy has the rows of its input. -/
theorem rows_copy : p.rows M input = p.rows M id := by
  have hcount : places.length = p.columnCount input := by
    rw [f.columnCount_input]
    exact (f.wellFormed.arranged.columnCount_of_own f.live f.isCopy.layout_eq).symm
  have hrange : places = range (p.columnCount input) := by
    refine ext_getElem (by simpa using hcount) fun i hi _ => ?_
    rw [getElem_range]
    exact (hplaces i _ (List.getElem?_eq_getElem hi)).symm
  rw [f.isCopy.rows_eq f.wellFormed.toScoped f.live, hrange]
  exact (f.wellFormed.arranged.map_select_range f.input_live).symm

/-- Everything has the rows it had. -/
theorem node_inPlace (hx : x ∈ p.order)
    (hjoins : ∀ n ∈ p.order, (p.op n).isJoin = true → id ∈ p.inputs n → input ∉ p.inputs n) :
    p.rows M x = M.node (r.op x) (r.columnsOf (r.reads x)) ((r.inputs x).map r.columnCount)
      ((r.inputs x).map (p.rows M)) := by
  have h := f.wellFormed.arranged
  have hinputs : (r.inputs x).map (p.rows M) = (p.inputs x).map (p.rows M) := by
    rw [f.inputs_forwarded hx, map_map]
    refine map_congr_left fun i _ => ?_
    by_cases hcopy : i = id
    · rw [Function.comp_apply, hcopy, NodeId.replaced_self, f.rows_copy hplaces]
    · rw [Function.comp_apply, NodeId.replaced_of_ne _ hcopy]
  rw [hinputs, f.columnCounts_forwarded hx, f.op_inPlace hplaces hx, h.toOrdered.rows_eq hx]
  refine (Meaning.node_mapColumns (fun c hc => ?_) _ _).symm
  rw [f.columnsOf_forwarded hx]
  exact idxOf_replaced (f.wellFormed.reads_of_mem hx hc).1 (f.not_reads_both hx hc hjoins)

end InPlace

/-! ### Copies with the columns in another order -/

section Reordered

variable (hconsumers : p.hasPassThroughConsumer id = false)
  (hjoins : ∀ n ∈ p.order, (p.op n).isJoin = true → id ∉ p.inputs n) (hx : x ∈ p.order)
include hconsumers hjoins hx

/-- What reads the copy reads nothing else, makes columns of its own and does not group by leading
ones. -/
theorem own_of_reads (hread : id ∈ p.inputs x) :
    p.inputs x = [id] ∧ (∃ width names, (p.op x).layout = .own width names) ∧
      ∀ a, p.op x = .aggregate a → a.groupCount = 0 := by
  have hjoin : (p.op x).isJoin = false := by
    simpa using fun h => hjoins x hx h hread
  have hpass := (any_eq_false.mp hconsumers) x (mem_consumers.mpr ⟨hx, hread⟩)
  have harity := f.wellFormed.arranged.arity x hx
  have hinputs : (Arity.exactly 1).admits (p.inputs x).length = true → p.inputs x = [id] := by
    intro hone
    obtain ⟨i, hi⟩ := Arity.exactly_one_admits hone
    rw [hi, mem_singleton] at hread
    rw [hi, hread]
  cases hop : p.op x <;> rw [hop] at hjoin hpass harity <;>
    simp_all [Operator.layout, Operator.isJoin, Operator.arity, Arity.admits]

/-- What reads the copy finds the values at the places in the input. -/
theorem node_of_reads (hread : id ∈ p.inputs x) :
    p.rows M x = M.node (r.op x) (r.columnsOf (r.reads x)) ((r.inputs x).map r.columnCount)
      ((r.inputs x).map (p.rows M)) := by
  obtain ⟨hinputs, ⟨width, names, hlayout⟩, hkeys⟩ := f.own_of_reads hconsumers hjoins hx hread
  have hne : x ≠ input := fun heq => f.not_reads_of_input (heq ▸ hread)
  have hreads : p.reads x = [id] := by
    rw [reads_of_not_join, hinputs, flatMap_singleton, exposed_of_not_join f.isCopy.isJoin_eq]
    simpa using fun h => hjoins x hx h hread
  -- Columns and positions are found at the places in the input, and nothing is grouped by.
  have hcolumns : ∀ row ∈ p.rows M input, ∀ c ∈ (p.op x).columns,
      M.cell row ((r.columnsOf [input]).idxOf (Result.valueOr c
        (redirectColumn id input (some (forwardMap j)) (p.standIns x id input) c))) =
      M.cell (M.select places row) ((p.columnsOf [id]).idxOf c) := by
    intro row _ c hc
    obtain ⟨hsource, hlt⟩ := f.wellFormed.reads_of_mem hx hc
    rw [hreads, mem_singleton] at hsource
    obtain ⟨k, hk, hvalue⟩ := f.valueOr_redirectColumn hx hne hc hsource
    have hkInput := f.isCopy.lt_of_mem f.wellFormed.toScoped f.live (mem_of_getElem? hk)
    obtain ⟨source, index⟩ := c
    obtain rfl : source = id := hsource
    rw [hvalue, idxOf_columnsOf_cons (f.columnCount_eq f.input_live ▸ hkInput),
      idxOf_columnsOf_cons hlt, Meaning.cell_select hk]
  have hpositions : ∀ row ∈ p.rows M input, ∀ i ∈ (p.op x).positions,
      M.cell row (Result.valueOr i (mappedPosition id (some (forwardMap j)) i)) =
      M.cell (M.select places row) i := by
    intro row _ i hi
    obtain ⟨k, hk⟩ := f.placed x hx hread i hi
    rw [hk, Meaning.cell_select (f.isCopy.mappedPosition_eq_ok hk)]
    rfl
  have hown := Meaning.node_of_own hlayout hcolumns hpositions
    (fun a ha row _ => by rw [hkeys a ha]; rfl) [p.columnCount id] [r.columnCount input]
  rw [f.wellFormed.arranged.toOrdered.rows_eq hx, f.op_of_reads hx hread, f.reads_forwarded hx,
    f.inputs_forwarded hx, hreads, hinputs]
  simp only [map_cons, map_nil, NodeId.replaced_self, f.isCopy.rows_eq f.wellFormed.toScoped f.live]
  simpa only [map_id'] using hown.symm

/-- Everything has the rows it had. -/
theorem node_reordered :
    p.rows M x = M.node (r.op x) (r.columnsOf (r.reads x)) ((r.inputs x).map r.columnCount)
      ((r.inputs x).map (p.rows M)) := by
  by_cases hread : id ∈ p.inputs x
  · exact f.node_of_reads hconsumers hjoins hx hread
  have hrefer : id ∉ p.reads x := by
    intro hmem
    obtain ⟨i, hi, hjoin, hmem⟩ := (mem_inputs_of_reads hmem).resolve_left hread
    exact hjoins i (f.wellFormed.arranged.mem_of_input hx hi) hjoin hmem
  have hcolumns : r.columnsOf (r.reads x) = p.columnsOf (p.reads x) := by
    rw [f.reads_forwarded hx, NodeId.map_replaced_of_not_mem input hrefer, columnsOf, columnsOf]
    exact flatMap_congr fun i hi => by
      rw [f.columnCount_eq (f.wellFormed.arranged.reads_subset hx hi)]
  rw [f.wellFormed.arranged.toOrdered.rows_eq hx, hcolumns, f.columnCounts_forwarded hx,
    f.inputs_forwarded hx, NodeId.map_replaced_of_not_mem input hread,
    op_congr (f.node_of_unread hx hread hrefer)]

end Reordered

end Forwarded

/-! ### The pass -/

/-- If a node is a copy that is to be taken out, the joins that read it find the columns of its
input in place, and none of them reads that input as well. -/
def CopyKeepsJoins (p : Plan) (id : NodeId) : Prop :=
  match p.op id, p.inputs id with
  | .project j, [input] =>
    p.root? ≠ some id → (p.isIdenticalCopy id j).holds (fun copy => copy) = true →
      ∀ n ∈ p.order, (p.op n).isJoin = true → id ∈ p.inputs n →
        input ∉ p.inputs n ∧ ∀ move ∈ forwardMap j, move.1 = move.2
  | _, _ => True

instance (p : Plan) (id : NodeId) : Decidable (p.CopyKeepsJoins id) :=
  haveI (j : Project) (input : NodeId) : Decidable (∀ n ∈ p.order, (p.op n).isJoin = true →
      id ∈ p.inputs n → input ∉ p.inputs n ∧ ∀ move ∈ forwardMap j, move.1 = move.2) :=
    List.decidableBAll _ _
  decideProjection _ _

/-- Every copy that the pass takes out keeps the joins over it when its turn comes. -/
def CopiesKeepJoins (p : Plan) : Prop :=
  Result.Along (eliminateCopy p.root?) CopyKeepsJoins p.order p

instance (p : Plan) : Decidable p.CopiesKeepJoins :=
  inferInstanceAs (Decidable (Result.Along _ _ _ _))

/-- Taking out a copy keeps the rows of what is left. -/
theorem eliminateCopy_keeps_rows (h : p.WellFormed) (hid : id ∈ p.order)
    (hkeeps : p.CopyKeepsJoins id) (hq : eliminateCopy p.root? p id = .ok q) :
    q.root? = p.root? ∧ ∀ x ∈ q.order, q.rows M x = p.rows M x := by
  have hwf := (eliminateCopy_wellFormed h hid hq).1
  rcases eliminateCopy_cases hq with rfl | ⟨j, hop, hroot, hcopy, hbypass⟩
  · exact ⟨rfl, fun _ _ => rfl⟩
  obtain ⟨-, hidentity, -, hpermutes⟩ := isIdenticalCopy_eq_ok_true hcopy
  obtain ⟨j', input, places, hc⟩ := exists_isCopy hidentity
  cases hc.op_eq.symm.trans hop
  obtain ⟨i, r, hinputs, hr, rfl⟩ := bypass_eq_ok hbypass
  cases hc.inputs_eq.symm.trans hinputs
  have f := h.forwarded hid hc (h.arranged.columnCount_of_isIdentity hid hidentity hinputs).symm hr
  rw [CopyKeepsJoins, hop, hinputs] at hkeeps
  have hjoins := hkeeps hroot (Result.holds_eq_true.mpr ⟨true, hcopy, rfl⟩)
  have hrRoot : r.root? = p.root? := by rw [root?, f.order_eq]; rfl
  refine ⟨by rw [root?_remove (hrRoot ▸ hroot), hrRoot], ?_⟩
  have hshape : SameShape r (r.remove id) := .of_arena_eq rfl
  refine hwf.arranged.toOrdered.rows_unique fun x hx => ?_
  have hx : x ∈ p.order := f.order_eq ▸ (mem_order_remove.mp hx).1
  rw [hshape.columnCount_eq, hshape.reads_eq, hshape.columnsOf_eq]
  by_cases hplain : ∀ move ∈ forwardMap j, move.1 = move.2
  · exact f.node_inPlace (fun i k hk => hplain (i, k) (hc.mem_forwardMap.mpr hk)) hx
      fun n hn hjoin hread => (hjoins n hn hjoin hread).1
  · refine f.node_reordered (hpermutes ?_) (fun n hn hjoin hread => ?_) hx
    · simpa [any_eq_true] using hplain
    · exact hplain (hjoins n hn hjoin hread).2

/-- Taking out copies keeps the rows of what is left, the order of the columns included, if every
copy that is taken out keeps the joins over it. -/
theorem eliminateCopies_keeps_rows (h : p.WellFormed) (hcopies : p.CopiesKeepJoins)
    (hq : p.eliminateCopies = .ok q) : ∀ x ∈ q.order, q.rows M x = p.rows M x := by
  refine (h.removals_induct (motive := fun done r => (r.root? = p.root? ∧
    ∀ x ∈ r.order, r.rows M x = p.rows M x) ∧
      Result.Along (eliminateCopy p.root?) CopyKeepsJoins (p.order.drop done.length) r) hq
    ⟨⟨rfl, fun _ _ => rfl⟩, hcopies⟩ fun done id rest r r' hsplit hr hid hmotive hstep => ?_).2.1.2
  obtain ⟨⟨hroot, hrows⟩, halong⟩ := hmotive
  rw [hsplit, drop_left] at halong
  obtain ⟨hkeeps, halong⟩ := halong.step hstep
  obtain ⟨hr', horder⟩ := eliminateCopy_wellFormed hr hid hstep
  have hremoved : r'.order <+ r.order ∧
      ∀ x ∈ r.order, x ∉ r'.order → x = id ∨ [x, id] <+ r.order := only_self_removed horder
  obtain ⟨hroot', hrows'⟩ := eliminateCopy_keeps_rows (M := M) hr hid hkeeps (hroot ▸ hstep)
  refine ⟨⟨hr', hremoved⟩, ⟨hroot'.trans hroot, fun x hx => ?_⟩, ?_⟩
  · exact (hrows' x hx).trans (hrows x (hremoved.1.subset hx))
  · rw [hsplit, append_cons done id rest, drop_left]
    exact halong

/-- A join over a column of a reordered copy and over a copy with its column in place. -/
def joinOfCopies : Plan :=
  let values (names : List String) (row : List Literal) : Operator :=
    .values ⟨names.map fun name => ⟨name, .condition⟩, [row]⟩
  let project (columns : List ColumnRef) (names : List String) : Operator :=
    .project (.plain (columns.map Expr.column) names)
  { arena := #[.make 0 [] (values ["a", "b"] [.bool true, .bool false]),
      .make 1 [⟨0⟩] (project [⟨⟨0⟩, 1⟩, ⟨⟨0⟩, 0⟩] ["b", "a"]),
      .make 2 [⟨1⟩] (project [⟨⟨1⟩, 0⟩] ["b"]),
      .make 3 [] (values ["x"] [.bool true]),
      .make 4 [⟨3⟩] (project [⟨⟨3⟩, 0⟩] ["x"]),
      .make 5 [⟨2⟩, ⟨4⟩] (.join ⟨.bool true, .inner⟩)]
    order := (range 6).map NodeId.mk }

/-- Both copies leave, and the join has the row it had. -/
theorem eliminateCopies_keeps_rows_joinOfCopies :
    joinOfCopies.WellFormed ∧ joinOfCopies.CopiesKeepJoins ∧
      ∃ q, joinOfCopies.eliminateCopies = .ok q ∧ q.order = [⟨0⟩, ⟨2⟩, ⟨3⟩, ⟨5⟩] ∧
        q.rows .ofTruthValues ⟨5⟩ = [[some false, some true]] := by
  have hwf : joinOfCopies.WellFormed :=
    wellFormed_of_reads ⟨⟨by decide, by decide, by decide⟩, by decide⟩ (by decide) (by decide)
      (by decide +kernel)
  have hkeeps : joinOfCopies.CopiesKeepJoins := by decide +kernel
  have hrun : joinOfCopies.eliminateCopies.holds
      (fun q => q.order == [⟨0⟩, ⟨2⟩, ⟨3⟩, ⟨5⟩]) = true := by decide +kernel
  obtain ⟨q, hq, horder⟩ := Result.holds_eq_true.mp hrun
  have horder : q.order = [⟨0⟩, ⟨2⟩, ⟨3⟩, ⟨5⟩] := eq_of_beq horder
  refine ⟨hwf, hkeeps, q, hq, horder, ?_⟩
  rw [eliminateCopies_keeps_rows hwf hkeeps hq ⟨5⟩ (horder ▸ by decide)]
  decide +kernel

/-- A join over a copy whose columns are in another order. -/
def joinOfReordered : Plan :=
  let values (names : List String) (row : List Literal) : Operator :=
    .values ⟨names.map fun name => ⟨name, .condition⟩, [row]⟩
  { arena := #[.make 0 [] (values ["a", "b"] [.bool true, .bool false]),
      .make 1 [⟨0⟩] (.project (.plain [.column ⟨⟨0⟩, 1⟩, .column ⟨⟨0⟩, 0⟩] ["b", "a"])),
      .make 2 [] (values ["x"] [.bool true]),
      .make 3 [⟨1⟩, ⟨2⟩] (.join ⟨.bool true, .inner⟩)]
    order := (range 4).map NodeId.mk }

/-- The join shows the columns of the copy in the order of its input once the copy has left. -/
theorem eliminateCopies_changes_rows_joinOfReordered :
    joinOfReordered.WellFormed ∧ ∃ q, joinOfReordered.eliminateCopies = .ok q ∧ ⟨3⟩ ∈ q.order ∧
      joinOfReordered.rows .ofTruthValues ⟨3⟩ = [[some false, some true, some true]] ∧
      q.rows .ofTruthValues ⟨3⟩ = [[some true, some false, some true]] := by
  have hwf : joinOfReordered.WellFormed :=
    wellFormed_of_reads ⟨⟨by decide, by decide, by decide⟩, by decide⟩ (by decide) (by decide)
      (by decide +kernel)
  have hrun : joinOfReordered.eliminateCopies.holds (fun q => q.order.contains ⟨3⟩ &&
      q.rows .ofTruthValues ⟨3⟩ == [[some true, some false, some true]]) = true := by
    decide +kernel
  obtain ⟨q, hq, hrun⟩ := Result.holds_eq_true.mp hrun
  rw [Bool.and_eq_true, contains_iff_mem, beq_iff_eq] at hrun
  exact ⟨hwf, q, hq, hrun.1, by decide +kernel, hrun.2⟩

end Plan

end QueryPlan
