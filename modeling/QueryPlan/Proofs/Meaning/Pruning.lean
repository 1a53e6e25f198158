import QueryPlan.Proofs.Meaning.Selection
import QueryPlan.Proofs.Pruning.References
import QueryPlan.Proofs.Scope.Pruning
/-!
# QueryPlan.Proofs.Meaning.Pruning

**Dropping columns that nothing reads keeps the meaning.** In one step every node has the rows it
had, of which the columns are selected that remain (`Plan.Dropped.rows_eq`): references and
positions find the values that they found, and a node with columns of its own makes the same rows.
Over the whole pass the selections compose, and the root keeps all columns
(`Plan.eliminateDeadColumns_keeps_rows`).

This takes that no node carries the columns of one projection along two ways. A join that does is
adapted once for each way, from widths that have changed already
(`Plan.eliminateDeadColumns_changes_rows_leftJoinOfFilter`).
-/

namespace QueryPlan

open List

namespace Meaning

variable {V : Type} {M : Meaning V}

/-- Of mapped values, those are selected that come from the selected ones. -/
theorem select_map {α : Type} {as : List α} {places : List Nat}
    (h : ∀ i ∈ places, i < as.length) (g : α → V) :
    M.select places (as.map g) = (places.filterMap fun i => as[i]?).map g := by
  rw [select, map_filterMap, filterMap_eq_map_iff_forall_eq_some.mpr]
  intro i hi
  rw [cell, getElem?_map, getElem?_eq_getElem (h i hi)]
  rfl

/-- The projection to some of the expressions selects their values. -/
theorem projected_keep {exprs : List Expr} {kept : List Nat} (h : ∀ i ∈ kept, i < exprs.length)
    (envs : List (Env V)) : M.projected (kept.filterMap fun i => exprs[i]?) envs =
      (M.projected exprs envs).map (M.select kept) := by
  unfold projected
  rw [map_map]
  exact map_congr_left fun i _ => (select_map h _).symm

theorem precedes_map {keys : List SortKey} {f : List V → List V} {ψ : Nat → Nat} {a b : List V}
    (ha : ∀ k ∈ keys, M.cell (f a) (ψ k.column) = M.cell a k.column)
    (hb : ∀ k ∈ keys, M.cell (f b) (ψ k.column) = M.cell b k.column) :
    M.precedes (keys.map fun k => { k with column := ψ k.column }) (f a) (f b) =
      M.precedes keys a b := by
  unfold precedes
  rw [foldr_map]
  refine congrArg (· != Ordering.gt) (foldr_ext _ _ _ fun k hk rest => ?_)
  rw [ha k hk, hb k hk]

/-- Sorting by keys that are found sorts the rows as before. -/
theorem sorted_map {s : Sorting} {rows : Rows V} {f : List V → List V} {ψ : Nat → Nat}
    (h : ∀ row ∈ rows, ∀ k ∈ s.collation, M.cell (f row) (ψ k.column) = M.cell row k.column) :
    M.sorted { s with collation := s.collation.map fun k => { k with column := ψ k.column } }
      (rows.map f) = (M.sorted s rows).map f := by
  have hsort : (rows.map f).mergeSort
      (M.precedes (s.collation.map fun k => { k with column := ψ k.column })) =
      (rows.mergeSort (M.precedes s.collation)).map f :=
    (map_mergeSort fun a ha b hb => (precedes_map (h a ha) (h b hb)).symm).symm
  unfold sorted
  simp only [hsort]
  split
  · rfl
  · cases s.limit with
    | none => exact map_drop.symm
    | some limit =>
        dsimp only
        rw [← map_drop, ← map_take]

/-- A condition that finds its columns is true for the same rows. -/
theorem filtered_map {scope scope' : List ColumnRef} {φ : ColumnRef → ColumnRef} {e : Expr}
    {rows : Rows V} {f : List V → List V} (h : ∀ row ∈ rows, ∀ c ∈ e.columns,
      M.cell (f row) (scope'.idxOf (φ c)) = M.cell row (scope.idxOf c)) :
    M.filtered scope' (e.mapColumns φ) (rows.map f) = (M.filtered scope e rows).map f := by
  unfold filtered
  rw [filter_map]
  refine congrArg (map f) (filter_congr fun row hrow => ?_)
  exact holds_mapColumns rfl (h row hrow)

/-- Joining rows that are mapped maps the joined rows. -/
theorem joined_map {kind : JoinKind} {width width' : Nat} {left right : Rows V}
    {isMatch isMatch' : List V → Bool} {f g h : List V → List V}
    (happend : ∀ a ∈ left, ∀ b, h (a ++ b) = f a ++ g b)
    (hnull : g (replicate width M.null) = replicate width' M.null)
    (hmatch : ∀ a ∈ left, ∀ b ∈ right, isMatch' (f a ++ g b) = isMatch (a ++ b)) :
    M.joined kind width' isMatch' (left.map f) (right.map g) =
      (M.joined kind width isMatch left right).map h := by
  unfold joined
  rw [flatMap_map, map_flatMap]
  refine flatMap_congr fun a ha => ?_
  have hpairs : ((right.map g).map fun b => f a ++ b).filter isMatch' =
      ((right.map fun b => a ++ b).filter isMatch).map h := by
    rw [map_map, filter_map, filter_map, map_map]
    have hkeep : right.filter (isMatch' ∘ ((fun b => f a ++ b) ∘ g)) =
        right.filter (isMatch ∘ fun b => a ++ b) :=
      filter_congr fun b hb => hmatch a ha b hb
    rw [hkeep]
    exact map_congr_left fun b _ => (happend a ha b).symm
  simp only [hpairs, isEmpty_map]
  cases kind with
  | inner => rfl
  | left =>
      dsimp only
      split
      · rw [map_singleton, happend a ha, hnull]
      · rfl

/-- Truth values, of which an aggregate call takes the first one of a group. -/
def ofFirstTruthValues : Meaning (Option Bool) :=
  { ofTruthValues with aggregate := fun _ _ _ rows => (rows.headD []).headD none }

end Meaning

namespace Plan

variable {V : Type} [DecidableEq V] {M : Meaning V} {p q r : Plan} {id x y : NodeId}
  {root : Option NodeId} {j : Project} {used kept : List Nat}

/-- The rows of a node with the columns that remain. -/
def remainingRows (p : Plan) (M : Meaning V) (id : NodeId) (kept : List Nat) (x : NodeId) : Rows V :=
  (p.rows M x).map (M.select (p.remaining id kept x))

namespace Dropping

variable (d : Dropping p root id j used kept)
include d

/-- A node that does not carry the columns keeps its rows. -/
theorem remainingRows_of_not_carries (hx : x ∈ p.order) (h : ¬p.Carries id x) :
    p.remainingRows M id kept x = p.rows M x := by
  rw [remainingRows, d.remaining_of_not_carries x hx h]
  exact d.wellFormed.arranged.map_select_range hx

/-- What remains of the columns that a node shows. -/
theorem remainingOf_exposed (hy : y ∈ p.order) :
    p.remainingOf id kept (p.exposed y) = p.remaining id kept y := by
  cases hjoin : (p.op y).isJoin with
  | false =>
      rw [exposed_of_not_join hjoin, remainingOf_cons]
      exact append_nil _
  | true =>
      have hne : y ≠ id := by
        rintro rfl
        rw [d.op_eq] at hjoin
        cases hjoin
      rw [exposed_of_join hjoin, d.remaining_eq hy hne, (Operator.layout_eq_all_iff _).mpr hjoin]
      rfl

end Dropping

namespace Dropped

variable (f : Dropped p q root id j used kept)
include f

/-- Every reference and every position finds the value that it found. -/
theorem found (hx : x ∈ p.order) : ∃ φ ψ,
    q.op x = (((p.narrow id j kept).op x).mapExprs (Expr.mapColumns φ)).mapPositions ψ ∧
    (∀ c ∈ ((p.narrow id j kept).op x).columns,
      (p.remainingOf id kept (p.reads x))[(q.columnsOf (q.reads x)).idxOf (φ c)]? =
        some ((p.columnsOf (p.reads x)).idxOf c)) ∧
    ∀ y, p.inputs x = [y] → ∀ i ∈ ((p.narrow id j kept).op x).positions,
      (¬p.Carries id y → ψ i = i) ∧
      (p.Carries id y → (p.remaining id kept y)[ψ i]? = some i) := by
  obtain ⟨φ, ψ, hop, hcolumns, hpositions⟩ := f.op_moved x hx
  refine ⟨φ, ψ, hop, fun c hc => ?_, hpositions⟩
  obtain ⟨hsource, hplace⟩ := hcolumns c hc
  rw [f.reads_eq]
  exact f.getElem?_remainingOf (fun i => f.wellFormed.arranged.reads_subset hx)
    (f.wellFormed.reads_of_mem hx (f.columns_narrow hc)).1 hsource hplace

/-- What reads no node that carries the columns has the rows it had. -/
theorem node_untouched (hx : x ∈ p.order) (hne : x ≠ id)
    (h : ∀ i ∈ p.inputs x, ¬p.Carries id i) :
    p.remainingRows M id kept x = M.node (q.op x) (q.columnsOf (q.reads x))
      ((q.inputs x).map q.columnCount) ((q.inputs x).map (p.remainingRows M id kept)) := by
  have hlive : ∀ i ∈ p.inputs x, i ∈ p.order := fun i => f.ordered.mem_of_input hx
  obtain ⟨φ, ψ, hop, hcolumns, hpositions⟩ := f.found hx
  rw [op_narrow_of_ne hne] at hop hcolumns hpositions
  have hinputs : (p.inputs x).map (p.remainingRows M id kept) = (p.inputs x).map (p.rows M) :=
    map_congr_left fun i hi => f.remainingRows_of_not_carries (hlive i hi) (h i hi)
  have hwidths : (p.inputs x).map q.columnCount = (p.inputs x).map p.columnCount :=
    map_congr_left fun i hi => by
      rw [f.columnCount_eq (hlive i hi), f.remaining_of_not_carries i (hlive i hi) (h i hi),
        length_range]
  have hreads : ∀ i ∈ p.reads x, ¬p.Carries id i := by
    intro i hi hcarries
    rcases mem_inputs_of_reads hi with hread | ⟨k, hk, hjoin, hread⟩
    · exact h i hread hcarries
    · refine h k hk (hcarries.of_input f.usage_eq (hlive k hk) hread fun width names hown => ?_)
      rw [(Operator.layout_eq_all_iff _).mpr hjoin] at hown
      cases hown
  have hplaces : ∀ i ∈ ((p.op x).mapExprs (Expr.mapColumns φ)).positions, ψ i = i := by
    intro i hi
    rw [Operator.positions_mapExprs] at hi
    obtain ⟨y, hy, -⟩ := f.wellFormed.input_of_arity_one hx (Operator.arity_of_mem_positions hi)
    exact (hpositions y hy i hi).1 (h y (hy ▸ mem_singleton_self y))
  rw [f.remainingRows_of_not_carries hx (not_carries_of_inputs hne h), f.inputs_eq, hinputs,
    hwidths, hop, Operator.mapPositions_eq_self hplaces, f.ordered.rows_eq hx]
  refine (Meaning.node_mapColumns (fun c hc => ?_) _ _).symm
  have hfound := hcolumns c hc
  rw [remainingOf_eq_range fun i hi => f.remaining_of_not_carries i
    (f.wellFormed.arranged.reads_subset hx hi) (hreads i hi)] at hfound
  obtain ⟨hlt, hplace⟩ := List.getElem?_eq_some_iff.mp hfound
  rwa [getElem_range] at hplace

/-- What remains of the columns that the only input of a node shows. -/
theorem remainingOf_reads (hx : x ∈ p.order) (hinputs : p.inputs x = [y])
    (hjoin : (p.op x).isJoin = false) :
    p.remainingOf id kept (p.reads x) = p.remaining id kept y := by
  rw [reads_of_input hjoin hinputs]
  exact f.remainingOf_exposed (f.ordered.mem_of_input hx (hinputs ▸ mem_singleton_self y))

/-- What makes columns of its own finds the values that it found. -/
theorem node_own (hx : x ∈ p.order) (hinputs : p.inputs x = [y]) {width : Nat}
    {names : List String} (hop : ((p.narrow id j kept).op x).layout = .own width names)
    (hkeys : ∀ a, (p.narrow id j kept).op x = .aggregate a → ∀ row ∈ p.rows M y,
      M.fit a.groupCount (M.select (p.remaining id kept y) row) = M.fit a.groupCount row) :
    M.node (q.op x) (q.columnsOf (q.reads x)) ((q.inputs x).map q.columnCount)
        ((q.inputs x).map (p.remainingRows M id kept)) =
      M.node ((p.narrow id j kept).op x) (p.columnsOf (p.reads x))
        ((p.inputs x).map p.columnCount) ((p.inputs x).map (p.rows M)) := by
  have hy := f.ordered.mem_of_input hx (hinputs ▸ mem_singleton_self y)
  have hjoin : (p.op x).isJoin = false := by
    have hsame : ((p.narrow id j kept).op x).isJoin = (p.op x).isJoin :=
      isJoin_narrow f.inArena f.op_eq x
    rw [← hsame]
    cases hop' : (p.narrow id j kept).op x <;> rw [hop'] at hop <;> first | rfl | cases hop
  obtain ⟨φ, ψ, hmoved, hcolumns, hpositions⟩ := f.found hx
  rw [f.remainingOf_reads hx hinputs hjoin] at hcolumns
  have hplaces : ∀ row ∈ p.rows M y, ∀ i ∈ ((p.narrow id j kept).op x).positions,
      M.cell (M.select (p.remaining id kept y) row) (ψ i) = M.cell row i := by
    intro row hrow i hi
    by_cases hcarries : p.Carries id y
    · exact Meaning.cell_select ((hpositions y hinputs i hi).2 hcarries) row
    · rw [(hpositions y hinputs i hi).1 hcarries, f.remaining_of_not_carries y hy hcarries,
        ← f.wellFormed.arranged.length_of_mem_rows y hy row hrow, Meaning.select_range]
  have hown := Meaning.node_of_own hop
    (fun row _ c hc => Meaning.cell_select (hcolumns c hc) row) hplaces hkeys
    [p.columnCount y] [q.columnCount y]
  rw [map_id'] at hown
  rw [f.inputs_eq, hinputs, hmoved]
  exact hown

/-- The narrowed projection has some of its columns. -/
theorem node_self :
    p.remainingRows M id kept id = M.node (q.op id) (q.columnsOf (q.reads id))
      ((q.inputs id).map q.columnCount) ((q.inputs id).map (p.remainingRows M id kept)) := by
  have hnarrow : (p.narrow id j kept).op id = .project (j.keep kept) := op_narrow_self f.inArena
  obtain ⟨y, hinputs, -⟩ := f.wellFormed.input_of_arity_one f.live (by rw [f.op_eq]; rfl)
  rw [f.node_own f.live hinputs (by rw [hnarrow]; rfl) (by simp [hnarrow]), hnarrow, remainingRows,
    f.remaining_self, f.ordered.rows_eq f.live, f.op_eq]
  exact (Meaning.projected_keep (fun i => f.lt_of_mem_kept) _).symm

section Reader

variable (hx : x ∈ p.order) (hy : p.Carries id y)
include hx hy

theorem ne_of_inputs (hinputs : p.inputs x = [y]) : x ≠ id :=
  f.ne_of_consumer hy (mem_consumers.mpr ⟨hx, hinputs ▸ mem_singleton_self y⟩)

/-- What makes columns of its own has the rows it had. -/
theorem node_reader (hinputs : p.inputs x = [y]) {width : Nat} {names : List String}
    (hop : (p.op x).layout = .own width names)
    (hkeys : ∀ a, p.op x = .aggregate a → ∀ row ∈ p.rows M y,
      M.fit a.groupCount (M.select (p.remaining id kept y) row) = M.fit a.groupCount row) :
    p.remainingRows M id kept x = M.node (q.op x) (q.columnsOf (q.reads x))
      ((q.inputs x).map q.columnCount) ((q.inputs x).map (p.remainingRows M id kept)) := by
  have hne := f.ne_of_inputs hx hy hinputs
  have hnarrow : (p.narrow id j kept).op x = p.op x := op_narrow_of_ne hne
  have hall : p.remaining id kept x = range (p.columnCount x) := by
    rw [f.remaining_eq hx hne, f.ordered.columnCount_eq hx, hop]
    rfl
  rw [f.node_own hx hinputs (hnarrow ▸ hop) (hnarrow ▸ hkeys), hnarrow, ← f.ordered.rows_eq hx,
    remainingRows, hall, f.wellFormed.arranged.map_select_range hx]

/-- A filter keeps the rows that it kept. -/
theorem node_filter (hinputs : p.inputs x = [y]) {g : Filter} (hop : p.op x = .filter g) :
    p.remainingRows M id kept x = M.node (q.op x) (q.columnsOf (q.reads x))
      ((q.inputs x).map q.columnCount) ((q.inputs x).map (p.remainingRows M id kept)) := by
  have hne := f.ne_of_inputs hx hy hinputs
  obtain ⟨φ, ψ, hmoved, hcolumns, -⟩ := f.found hx
  rw [op_narrow_of_ne hne] at hmoved hcolumns
  rw [f.remainingOf_reads hx hinputs (by rw [hop]; rfl)] at hcolumns
  have hremaining : p.remaining id kept x = p.remaining id kept y := by
    rw [f.remaining_eq hx hne, hop, hinputs]
    rfl
  rw [remainingRows, hremaining, f.ordered.rows_eq hx, hmoved, f.inputs_eq, hinputs, hop]
  refine (Meaning.filtered_map fun row _ c hc => Meaning.cell_select (hcolumns c ?_) row).symm
  rw [hop]
  exact Operator.mem_columns.mpr ⟨_, mem_singleton_self _, hc⟩

/-- A sort orders the rows as before. -/
theorem node_sort (hinputs : p.inputs x = [y]) {s : Sorting} (hop : p.op x = .sort s) :
    p.remainingRows M id kept x = M.node (q.op x) (q.columnsOf (q.reads x))
      ((q.inputs x).map q.columnCount) ((q.inputs x).map (p.remainingRows M id kept)) := by
  have hne := f.ne_of_inputs hx hy hinputs
  obtain ⟨φ, ψ, hmoved, -, hpositions⟩ := f.found hx
  rw [op_narrow_of_ne hne] at hmoved hpositions
  have hremaining : p.remaining id kept x = p.remaining id kept y := by
    rw [f.remaining_eq hx hne, hop, hinputs]
    rfl
  rw [remainingRows, hremaining, f.ordered.rows_eq hx, hmoved, f.inputs_eq, hinputs, hop]
  refine (Meaning.sorted_map fun row _ k hk => ?_).symm
  refine Meaning.cell_select ((hpositions y hinputs k.column ?_).2 hy) row
  rw [hop]
  exact mem_map_of_mem hk

/-- A join pairs the rows that it paired. -/
theorem node_join (hread : y ∈ p.inputs x) {k : Join} (hop : p.op x = .join k) :
    p.remainingRows M id kept x = M.node (q.op x) (q.columnsOf (q.reads x))
      ((q.inputs x).map q.columnCount) ((q.inputs x).map (p.remainingRows M id kept)) := by
  have hne := f.ne_of_consumer hy (mem_consumers.mpr ⟨hx, hread⟩)
  obtain ⟨φ, ψ, hmoved, hcolumns, -⟩ := f.found hx
  rw [op_narrow_of_ne hne] at hmoved hcolumns
  obtain ⟨left, right, hinputs⟩ := f.wellFormed.arranged.sides_of_join hx hop
  have hleft : left ∈ p.order := f.ordered.mem_of_input hx (by simp [hinputs])
  have hright : right ∈ p.order := f.ordered.mem_of_input hx (by simp [hinputs])
  have hplaces : p.remaining id kept x =
      p.remaining id kept left ++ (p.remaining id kept right).map (p.columnCount left + ·) := by
    rw [f.remaining_eq hx hne, hop, hinputs]
    simp [Operator.layout, Layout.remaining, joinedPlaces]
  have hreads : p.remainingOf id kept (p.reads x) = p.remaining id kept x := by
    rw [reads_of_join (by rw [hop]; rfl), f.remaining_eq hx hne, hop]
    rfl
  rw [hreads] at hcolumns
  have happend : ∀ a ∈ p.rows M left, ∀ b, M.select (p.remaining id kept x) (a ++ b) =
      M.select (p.remaining id kept left) a ++ M.select (p.remaining id kept right) b := by
    intro a ha b
    have hlength := f.wellFormed.arranged.length_of_mem_rows left hleft a ha
    rw [hplaces, ← hlength]
    refine Meaning.select_append (fun i hi => ?_) b
    rw [hlength]
    exact mem_range.mp ((f.remaining_sublist left hleft).subset hi)
  rw [remainingRows, f.ordered.rows_eq hx, hmoved, f.inputs_eq, hinputs, hop]
  refine (Meaning.joined_map happend ?_ fun a ha b _ => ?_).symm
  · rw [Meaning.select_replicate_null, f.columnCount_eq hright]
  · rw [← happend a ha b]
    refine Meaning.holds_mapColumns rfl fun c hc => ?_
    refine Meaning.cell_select (hcolumns c ?_) _
    rw [hop]
    exact Operator.mem_columns.mpr ⟨_, mem_singleton_self _, hc⟩

end Reader

/-- The leading columns that a node groups by remain. -/
theorem fit_select {count : Nat} (hy : y ∈ p.order)
    (h : ∀ i < count, i < p.columnCount y → i ∈ p.remaining id kept y) {row : List V}
    (hrow : row ∈ p.rows M y) :
    M.fit count (M.select (p.remaining id kept y) row) = M.fit count row := by
  refine map_congr_left fun i hi => ?_
  have hi := mem_range.mp hi
  have hlength := f.wellFormed.arranged.length_of_mem_rows y hy row hrow
  have hsub := f.remaining_sublist y hy
  by_cases hlt : i < p.columnCount y
  · have hfirst : range (i + 1) ⊆ p.remaining id kept y := by
      intro k hk
      have hk := mem_range.mp hk
      exact h k (by omega) (by omega)
    exact Meaning.cell_select (getElem?_of_range_subset hsub hfirst i.lt_succ_self) row
  -- There is no such column, before or after.
  · have hle := hsub.length_le
    rw [length_range] at hle
    rw [Meaning.cell, Meaning.cell, getElem?_eq_none (by rw [Meaning.length_select]; omega),
      getElem?_eq_none (by omega)]

/-- Every node has the rows it had, of which the columns are selected that remain. -/
theorem rows_eq : ∀ x ∈ p.order, q.rows M x = p.remainingRows M id kept x := by
  refine f.ordered_result.rows_unique fun x hx => ?_
  by_cases hself : x = id
  · rw [hself]
    exact f.node_self
  by_cases huntouched : ∀ i ∈ p.inputs x, ¬p.Carries id i
  · exact f.node_untouched hx hself huntouched
  push Not at huntouched
  obtain ⟨y, hread, hy⟩ := huntouched
  obtain ⟨fuel, u, hu, hremain⟩ := f.known hy
  obtain ⟨k, rfl, husage⟩ := usageWithin_eq_some hu
  have hconsumer := mem_consumers.mpr ⟨hx, hread⟩
  have hreader := husage.reader x hconsumer
  have hone : (p.op x).arity = .exactly 1 → p.inputs x = [y] := by
    intro harity
    obtain ⟨i, hi, -⟩ := f.wellFormed.input_of_arity_one hx harity
    rw [hi, mem_singleton] at hread
    rw [hi, hread]
  unfold Reader at hreader
  cases hop : p.op x with
  | project _ | tableFunction _ | compound _ =>
      exact f.node_reader hx hy (hone (by rw [hop]; rfl)) (by rw [hop]; rfl) (by simp [hop])
  | aggregate a =>
      refine f.node_reader hx hy (hone (by rw [hop]; rfl)) (by rw [hop]; rfl) fun b hb row hrow => ?_
      cases hop.symm.trans hb
      have hkeys : range a.groupCount ⊆ (p.op x).lookups := hop ▸ subset_append_left _ _
      exact f.fit_select (f.ordered.mem_of_input hx hread) (fun i hi =>
        hremain i (husage.lookups x hconsumer (hkeys (mem_range.mpr hi)))) hrow
  | filter g => exact f.node_filter hx hy (hone (by rw [hop]; rfl)) hop
  | sort s => exact f.node_sort hx hy (hone (by rw [hop]; rfl)) hop
  | join k => exact f.node_join hx hy hread hop
  | _ =>
      rw [hop] at hreader
      exact hreader.elim

end Dropped

/-! ### The pass -/

/-- A node of another plan has the rows that it had, of which columns are selected in order. -/
structure Selects (p q : Plan) (x : NodeId) (kept : List Nat) : Prop where
  increasing : kept <+ range (p.columnCount x)
  length_eq : kept.length = q.columnCount x
  rows_eq : ∀ (V : Type) [DecidableEq V] (M : Meaning V),
    q.rows M x = (p.rows M x).map (M.select kept)

namespace Selects

theorem all (h : p.Arranged p.order) (hx : x ∈ p.order) :
    p.Selects p x (range (p.columnCount x)) where
  increasing := Sublist.refl _
  length_eq := length_range
  rows_eq _ _ _ := (h.map_select_range hx).symm

theorem trans {here there : List Nat} (hpr : p.Selects r x here) (hrq : r.Selects q x there) :
    p.Selects q x (there.filterMap fun i => here[i]?) := by
  have hsub := hrq.increasing
  rw [← hpr.length_eq] at hsub
  have hlt : ∀ i ∈ there, i < here.length := fun i hi => mem_range.mp (hsub.subset hi)
  refine ⟨?_, (length_filterMap_getElem? hlt).trans hrq.length_eq, fun V _ M => ?_⟩
  · have hpicked := hsub.filterMap fun i => here[i]?
    rw [filterMap_getElem?_range] at hpicked
    exact hpicked.trans hpr.increasing
  · rw [hrq.rows_eq, hpr.rows_eq, map_map]
    exact map_congr_left fun row _ => Meaning.select_map hlt (M.cell row)

/-- A node that is as wide as before has the rows it had. -/
theorem eq_range {kept : List Nat} (h : p.Selects q x kept)
    (hcount : q.columnCount x = p.columnCount x) : kept = range (p.columnCount x) :=
  h.increasing.eq_of_length (by rw [h.length_eq, hcount, length_range])

end Selects

theorem Dropped.selects (f : Dropped p q root id j used kept) (hx : x ∈ p.order) :
    p.Selects q x (p.remaining id kept x) where
  increasing := f.remaining_sublist x hx
  length_eq := (f.columnCount_eq hx).symm
  rows_eq _ _ _ := f.rows_eq x hx

/-- Nothing is dropped of the root. -/
theorem Dropped.root_selects (f : Dropped p q root id j used kept) (hx : x ∈ p.order)
    (hroot : root = some x) : p.Selects q x (range (p.columnCount x)) := by
  have hcarries : ¬p.Carries id x := by
    intro hcarries
    obtain ⟨k, u, hu⟩ := hcarries.of_usage f.usage_eq
    obtain ⟨k, rfl, hknown⟩ := usageWithin_eq_some hu
    exact hknown.not_root hroot
  rw [← f.remaining_of_not_carries x hx hcarries]
  exact f.selects hx

/-- Dropping columns that nothing reads selects columns of every node, in order, and leaves the root
as it was. It takes that no node carries the columns of one projection along two ways. -/
theorem eliminateDeadColumns_keeps_rows (h : p.WellFormed) (honce : p.CarriesOnce)
    (hq : p.eliminateDeadColumns = .ok q) : q.order = p.order ∧
      (∀ x ∈ q.order, ∃ kept, p.Selects q x kept ∧
        (q.columnCount x = p.columnCount x → kept = range (p.columnCount x))) ∧
      ∀ x, p.root? = some x → q.columnCount x = p.columnCount x ∧
        ∀ (V : Type) [DecidableEq V] (M : Meaning V), q.rows M x = p.rows M x := by
  have hrun := Result.foldlM_keeps (motive := fun r => (r.WellFormed ∧ r.CarriesOnce ∧
    r.order = p.order) ∧ (∀ x ∈ p.order, ∃ kept, p.Selects r x kept) ∧
      ∀ x ∈ p.order, p.root? = some x → p.Selects r x (range (p.columnCount x))) hq
    ⟨⟨h, honce, rfl⟩, fun x hx => ⟨_, .all h.arranged hx⟩, fun x hx _ => .all h.arranged hx⟩
    fun id hid r s hr hs => ?_
  · obtain ⟨⟨-, -, horder⟩, hselects, hroot⟩ := hrun
    refine ⟨horder, fun x hx => ?_, fun x hx => ?_⟩
    · obtain ⟨kept, hkept⟩ := hselects x (horder ▸ hx)
      exact ⟨kept, hkept, hkept.eq_range⟩
    · have hx' := mem_of_getLast? hx
      have hall := hroot x hx' hx
      refine ⟨by rw [← hall.length_eq, length_range], fun V _ M => ?_⟩
      rw [hall.rows_eq, h.arranged.map_select_range hx']
  obtain ⟨⟨hwf, hronce, horder⟩, hselects, hroot⟩ := hr
  have hlive : id ∈ r.order := horder ▸ mem_reverse.mp hid
  obtain ⟨hswf, hsorder⟩ := hwf.dropDeadColumns hlive hs
  rcases dropDeadColumns_dropped hwf hronce hlive hs with rfl | ⟨j, used, kept, f⟩
  · exact ⟨⟨hwf, hronce, horder⟩, hselects, hroot⟩
  refine ⟨⟨hswf, f.carriesOnce hronce, hsorder.trans horder⟩, fun x hx => ?_, fun x hx hpx => ?_⟩
  · obtain ⟨places, hplaces⟩ := hselects x hx
    exact ⟨_, hplaces.trans (f.selects (horder ▸ hx))⟩
  · have hhere := hroot x hx hpx
    have hthere := f.root_selects (horder ▸ hx) hpx
    have hcount : s.columnCount x = p.columnCount x := by
      rw [← hthere.length_eq, length_range, ← hhere.length_eq, length_range]
    exact (hhere.trans hthere).eq_range hcount ▸ hhere.trans hthere

/-- The value of a column of a left join, whose left input is a filter over a projection to four
columns. Another filter over this projection reads a second one of them. -/
def leftJoinOfFilter (right : NodeId) : Plan :=
  let values (names : List String) (row : List Literal) : Operator :=
    .values ⟨names.map fun name => ⟨name, .condition⟩, [row]⟩
  let filter (k : Nat) : Operator := .filter ⟨.column ⟨⟨1⟩, k⟩⟩
  { arena := #[
      .make 0 [] (values ["a", "b", "c", "d"] [.bool false, .bool false, .bool false, .bool true]),
      .make 1 [⟨0⟩] (.project (.plain ((range 4).map fun k => .column ⟨⟨0⟩, k⟩)
        ["a", "b", "c", "d"])),
      .make 2 [⟨1⟩] (filter 1), .make 3 [⟨1⟩] (filter 3),
      .make 4 [] (values ["e", "f"] [.bool true, .bool false]),
      .make 5 [⟨3⟩, right] (.join ⟨.bool true, .left⟩),
      .make 6 [⟨5⟩] (.aggregate ⟨0, [⟨.singleValue, false, .condition, [5]⟩], ["x"], false⟩)]
    order := (range 7).map NodeId.mk }

/-- The projection has two columns left, and the root has the row it had. -/
theorem eliminateDeadColumns_keeps_rows_leftJoinOfFilter :
    (leftJoinOfFilter ⟨4⟩).WellFormed ∧ (leftJoinOfFilter ⟨4⟩).CarriesOnce ∧
      ∃ q, (leftJoinOfFilter ⟨4⟩).eliminateDeadColumns = .ok q ∧
        q.columnCount ⟨1⟩ = 2 ∧ q.columnCount ⟨5⟩ = 4 ∧
        q.rows .ofFirstTruthValues ⟨6⟩ = [[some false]] := by
  have hwf : (leftJoinOfFilter ⟨4⟩).WellFormed :=
    wellFormed_of_reads ⟨⟨by decide, by decide, by decide⟩, by decide⟩ (by decide) (by decide)
      (by decide +kernel)
  have honce : (leftJoinOfFilter ⟨4⟩).CarriesOnce := by decide +kernel
  have hrun : (leftJoinOfFilter ⟨4⟩).eliminateDeadColumns.holds
      (fun q => q.columnCount ⟨1⟩ == 2 && q.columnCount ⟨5⟩ == 4) = true := by decide +kernel
  obtain ⟨q, hq, hwidths⟩ := Result.holds_eq_true.mp hrun
  rw [Bool.and_eq_true, beq_iff_eq, beq_iff_eq] at hwidths
  have hroot := (eliminateDeadColumns_keeps_rows hwf honce hq).2.2 ⟨6⟩ (by decide)
  refine ⟨hwf, honce, q, hq, hwidths.1, hwidths.2, ?_⟩
  rw [hroot.2]
  decide +kernel

/-- If both inputs of the join are filters over the projection, the column is looked up at another
place afterwards. -/
theorem eliminateDeadColumns_changes_rows_leftJoinOfFilter :
    (leftJoinOfFilter ⟨2⟩).WellFormed ∧ (leftJoinOfFilter ⟨2⟩).root? = some ⟨6⟩ ∧
      ∃ q, (leftJoinOfFilter ⟨2⟩).eliminateDeadColumns = .ok q ∧
        (leftJoinOfFilter ⟨2⟩).rows .ofFirstTruthValues ⟨6⟩ = [[none]] ∧
        q.rows .ofFirstTruthValues ⟨6⟩ = [[some true]] := by
  have hwf : (leftJoinOfFilter ⟨2⟩).WellFormed :=
    wellFormed_of_reads ⟨⟨by decide, by decide, by decide⟩, by decide⟩ (by decide) (by decide)
      (by decide +kernel)
  have hrun : (leftJoinOfFilter ⟨2⟩).eliminateDeadColumns.holds
      (fun q => q.rows .ofFirstTruthValues ⟨6⟩ == [[some true]]) = true := by decide +kernel
  obtain ⟨q, hq, hrows⟩ := Result.holds_eq_true.mp hrun
  exact ⟨hwf, rfl, q, hq, by decide +kernel, eq_of_beq hrows⟩

end Plan

end QueryPlan
