import QueryPlan.Proofs.Meaning.Expr
import QueryPlan.Proofs.Plan.WellFormed
/-!
# QueryPlan.Proofs.Meaning.Rows

**What a node means.** The rows of a node come from the rows of its inputs (`Plan.rows`), as its
operator says (`Meaning.node`). Filters, projections, joins, sorts and compounds are read as
documented; what a table function, a union or a modification gives is up to the meaning.

References are looked up in the columns that the node sees, and the first of equal ones counts. So
an operator keeps its meaning if its references move together with the columns
(`Meaning.node_mapColumns`).
-/

namespace QueryPlan

open List

namespace Meaning

variable {V : Type} (M : Meaning V)

/-- The value at a place of a row. -/
def cell (row : List V) (i : Nat) : V := (row[i]?).getD M.null

/-- A row whose columns carry references. -/
def env (scope : List ColumnRef) (row : List V) : Env V where
  column c := M.cell row (scope.idxOf c)
  supplied _ := M.null

/-- A row of a width, cut or filled up if need be. -/
def fit (width : Nat) (row : List V) : List V := (range width).map (M.cell row)

/-- The rows for which a condition is true. -/
def filtered (scope : List ColumnRef) (condition : Expr) (rows : Rows V) : Rows V :=
  rows.filter fun row => M.holds (M.env scope row) condition

/-- The values of expressions at every row. -/
def projected (exprs : List Expr) (envs : List (Env V)) : Rows V :=
  (range envs.length).map fun i => exprs.map fun e => M.eval envs e i

/-! ### Joins -/

/-- Every row of the left input with the rows of the right input that it matches. A left join
keeps a row without such a partner, filled up with nulls. -/
def joined (kind : JoinKind) (width : Nat) (isMatch : List V → Bool) (left right : Rows V) :
    Rows V :=
  left.flatMap fun a =>
    let pairs := (right.map fun b => a ++ b).filter isMatch
    match kind with
    | .inner => pairs
    | .left => if pairs.isEmpty then [a ++ replicate width M.null] else pairs

/-- Adds the input of a level of a left-deep join: as a cross product at an inner level, and on
the condition of the level at a left one. -/
def addInput (scope : List ColumnRef) (j : LeftDeepJoin) (rows : Rows V)
    (input : (Nat × Rows V) × Nat) : Rows V :=
  let ((width, right), level) := input
  match (j.kinds[level]?).getD .inner with
  | .inner => M.joined .inner width (fun _ => true) rows right
  | .left => M.joined .left width
      (fun row => ((j.outer[level]?).getD none).all (M.holds (M.env scope row))) rows right

/-- The rows of a left-deep join before its condition is looked at. -/
def chained (scope : List ColumnRef) (j : LeftDeepJoin) (first : Rows V)
    (inputs : List (Nat × Rows V)) : Rows V :=
  inputs.zipIdx.foldl (M.addInput scope j) first

/-! ### Groups and orders -/

/-- Rows by their leading columns, the groups in the order of their first rows. Without leading
columns all rows are one group, even if there are none. -/
def groups [DecidableEq V] (count : Nat) (rows : Rows V) : List (List V × Rows V) :=
  if count = 0 then [([], rows)]
  else (rows.map (M.fit count)).eraseDups.map fun key =>
    (key, rows.filter fun row => M.fit count row = key)

/-- The value of an aggregate call for a group. -/
def called (rows : Rows V) (c : AggregateCall) : V :=
  M.aggregate c.kind c.distinct c.type (rows.map fun row => c.operands.map (M.cell row))

/-- The order by some keys, the first of them first. -/
def precedes (keys : List SortKey) (a b : List V) : Bool :=
  (keys.foldr (fun k rest =>
    (M.compare k.direction k.nulls (M.cell a k.column) (M.cell b k.column)).then rest) .eq) != .gt

/-- The rows in order, without the first ones and up to a limit. -/
def sorted (s : Sorting) (rows : Rows V) : Rows V :=
  if s.empty then []
  else
    let rest := (rows.mergeSort (M.precedes s.collation)).drop s.offset
    match s.limit with
    | none => rest
    | some limit => rest.take limit

/-! ### Compounds and table functions -/

/-- The sources of a compound at every row that passes its filter. -/
def sources (scope : List ColumnRef) (c : Compound) (rows : Rows V) : Rows V :=
  let passed := match c.filter with
    | none => rows
    | some condition => M.filtered scope condition rows
  M.projected c.sources (passed.map (M.env scope))

/-- The group key that a source stands for, if it is a supplied value. -/
def keyOf : Expr → Option Nat
  | .supplied k => some (k - 1)
  | _ => none

/-- A column of a compound for a group of rows of sources. -/
def target (c : Compound) (key : List V) (rows : Rows V) : CompoundTarget → V
  | .source i =>
    match (c.sources[i]?).bind keyOf with
    | some k => M.cell key k
    | none => M.cell (rows.headD []) i
  | .call i => ((c.calls[i]?).map (M.called rows)).getD M.null

/-- The rows of a compound. One that does not group takes every row for itself. -/
def compounded [DecidableEq V] (scope : List ColumnRef) (c : Compound) (rows : Rows V) : Rows V :=
  let rows := M.sources scope c rows
  if c.isAggregate then
    (M.groups c.groupCount rows).map fun (key, rows) => c.targets.map (M.target c key rows)
  else
    rows.map fun row => c.targets.map fun
      | .source i => M.cell row i
      | .call _ => M.null

/-- The rows of a table function: its results for each row that the function gives. -/
def tabled (scope : List ColumnRef) (t : TableFunction) (rows : Rows V) : Rows V :=
  let args := M.projected t.args (rows.map (M.env scope))
  let cursor := rows.map fun row => t.cursorColumns.map (M.cell row)
  M.projected t.results ((M.tableFunction t.function (cursor.zip args)).map fun (i, supplied) =>
    { M.env scope ((rows[i]?).getD []) with supplied := supplied })

/-! ### Nodes -/

/-- The rows of a node with an operator, from the widths and the rows of its inputs. -/
def node [DecidableEq V] (op : Operator) (scope : List ColumnRef) (widths : List Nat)
    (inputs : List (Rows V)) : Rows V :=
  match op with
  | .scan s => (M.scan s).map (M.fit s.fields.length)
  | .materializedScan s => (M.materializedScan s).map (M.fit s.columns.length)
  | .values v => v.rows.map fun row => M.fit v.columns.length (row.map M.literal)
  | .project j => M.projected j.exprs ((inputs.headD []).map (M.env scope))
  | .filter f => M.filtered scope f.condition (inputs.headD [])
  | .aggregate a => (M.groups a.groupCount (inputs.headD [])).map fun (key, rows) =>
      M.fit a.groupCount key ++ a.calls.map (M.called rows)
  | .join j =>
    match widths, inputs with
    | [_, width], [left, right] =>
      M.joined j.kind width (fun row => M.holds (M.env scope row) j.condition) left right
    | _, _ => []
  | .sort s => M.sorted s (inputs.headD [])
  | .modify m => (M.modify m (inputs.headD [])).map (M.fit (widths.headD 0))
  | .union u => (M.union u.all inputs).map (M.fit (widths.headD 0))
  | .tableFunction t => M.tabled scope t (inputs.headD [])
  | .compound c => M.compounded scope c (inputs.headD [])
  | .leftDeepJoin j =>
    match widths.zip inputs with
    | (_, first) :: inputs => M.filtered scope j.condition (M.chained scope j first inputs)
    | [] => []

/-! ### The width of a row -/

section Width

variable {M} {scope : List ColumnRef} {width : Nat} {left right rows : Rows V} {row : List V}

theorem length_fit (width : Nat) (row : List V) : (M.fit width row).length = width := by
  simp [fit]

theorem mem_of_mem_filtered {condition : Expr} (h : row ∈ M.filtered scope condition rows) :
    row ∈ rows := (mem_filter.mp h).1

theorem length_of_mem_projected {exprs : List Expr} {envs : List (Env V)}
    (h : row ∈ M.projected exprs envs) : row.length = exprs.length := by
  obtain ⟨i, -, rfl⟩ := mem_map.mp h
  exact length_map _

theorem length_of_mem_joined {kind : JoinKind} {isMatch : List V → Bool} {count : Nat}
    (hleft : ∀ a ∈ left, a.length = count) (hright : ∀ b ∈ right, b.length = width)
    (h : row ∈ M.joined kind width isMatch left right) : row.length = count + width := by
  obtain ⟨a, ha, h⟩ := mem_flatMap.mp h
  have hpair : ∀ pair ∈ (right.map fun b => a ++ b).filter isMatch,
      pair.length = count + width := by
    intro pair hpair
    obtain ⟨b, hb, rfl⟩ := mem_map.mp (mem_filter.mp hpair).1
    rw [length_append, hleft a ha, hright b hb]
  cases kind with
  | inner => exact hpair row h
  | left =>
      dsimp only at h
      split at h
      · rw [mem_singleton.mp h, length_append, hleft a ha, length_replicate]
      · exact hpair row h

theorem length_of_mem_addInput {j : LeftDeepJoin} {count level : Nat}
    (hleft : ∀ a ∈ left, a.length = count) (hright : ∀ b ∈ right, b.length = width)
    (h : row ∈ M.addInput scope j left ((width, right), level)) : row.length = count + width := by
  unfold addInput at h
  dsimp only at h
  split at h <;> exact length_of_mem_joined hleft hright h

/-- A row of a left-deep join is as wide as all inputs together. -/
theorem length_of_mem_chained {j : LeftDeepJoin} {inputs : List (Nat × Rows V)} {count : Nat}
    (hrows : ∀ a ∈ rows, a.length = count)
    (hinputs : ∀ input ∈ inputs, ∀ b ∈ input.2, b.length = input.1)
    (h : row ∈ M.chained scope j rows inputs) :
    row.length = count + (inputs.map Prod.fst).sum := by
  unfold chained at h
  generalize 0 = level at h
  induction inputs generalizing rows count level with
  | nil => simpa using hrows row h
  | cons input inputs ih =>
      obtain ⟨hinput, hinputs⟩ := forall_mem_cons.mp hinputs
      rw [zipIdx_cons, foldl_cons] at h
      rw [ih (fun a ha => length_of_mem_addInput hrows hinput ha) hinputs (level + 1) h,
        map_cons, sum_cons, Nat.add_assoc]

theorem mem_of_mem_sorted {s : Sorting} (h : row ∈ M.sorted s rows) : row ∈ rows := by
  unfold sorted at h
  split at h
  · cases h
  · have hrest : ∀ row ∈ (rows.mergeSort (M.precedes s.collation)).drop s.offset, row ∈ rows :=
      fun row hrow => mem_mergeSort.mp (mem_of_mem_drop hrow)
    dsimp only at h
    split at h
    · exact hrest row h
    · exact hrest row (mem_of_mem_take h)

theorem length_of_mem_compounded [DecidableEq V] {c : Compound}
    (h : row ∈ M.compounded scope c rows) : row.length = c.targets.length := by
  unfold compounded at h
  dsimp only at h
  split at h <;> obtain ⟨_, -, rfl⟩ := mem_map.mp h <;> exact length_map _

/-- A left-deep join starts from the rows of its first input. -/
theorem node_leftDeepJoin [DecidableEq V] (j : LeftDeepJoin) (count : NodeId → Nat)
    (rowsOf : NodeId → Rows V) (first : NodeId) (rest : List NodeId) :
    M.node (.leftDeepJoin j) scope ((first :: rest).map count) ((first :: rest).map rowsOf) =
      M.filtered scope j.condition
        (M.chained scope j (rowsOf first) (rest.map fun i => (count i, rowsOf i))) := by
  rw [← zip_map']
  rfl

/-- The rows of a node are as wide as its operator says. -/
theorem length_of_mem_node [DecidableEq V] {op : Operator} {ids : List NodeId}
    {count : NodeId → Nat} {rowsOf : NodeId → Rows V}
    (harity : op.arity.admits ids.length = true)
    (hids : ∀ i ∈ ids, ∀ row ∈ rowsOf i, row.length = count i)
    (h : row ∈ M.node op scope (ids.map count) (ids.map rowsOf)) :
    row.length = op.layout.width (ids.map count) := by
  have hfirst : ∀ row ∈ (ids.map rowsOf).headD [], row.length = (ids.map count).headD 0 := by
    cases ids with
    | nil => simp
    | cons i rest => exact hids i mem_cons_self
  cases op with
  | scan s | materializedScan s =>
      obtain ⟨_, -, rfl⟩ := mem_map.mp h
      exact length_fit _ _
  | values v =>
      obtain ⟨_, -, rfl⟩ := mem_map.mp h
      exact length_fit _ _
  | project j => exact length_of_mem_projected h
  | filter f => exact hfirst row (mem_of_mem_filtered h)
  | aggregate a =>
      obtain ⟨_, -, rfl⟩ := mem_map.mp h
      rw [length_append, length_fit, length_map]
      rfl
  | join j =>
      obtain ⟨left, right, rfl⟩ : ∃ left right, ids = [left, right] := by
        simpa [Operator.arity, Arity.admits, length_eq_two] using harity
      have hlength := length_of_mem_joined (hids left mem_cons_self)
        (hids right (mem_cons_of_mem _ mem_cons_self)) h
      simpa [Operator.layout, Layout.width] using hlength
  | sort s => exact hfirst row (mem_of_mem_sorted h)
  | modify m | union u =>
      obtain ⟨_, -, rfl⟩ := mem_map.mp h
      exact length_fit _ _
  | tableFunction t => exact length_of_mem_projected h
  | compound c => exact length_of_mem_compounded h
  | leftDeepJoin j =>
      cases ids with
      | nil => cases h
      | cons i rest =>
          rw [node_leftDeepJoin] at h
          have hlength := length_of_mem_chained (hids i mem_cons_self) (fun input hinput => by
            obtain ⟨x, hx, rfl⟩ := mem_map.mp hinput
            exact hids x (mem_cons_of_mem _ hx)) (mem_of_mem_filtered h)
          rw [hlength, map_map]
          rfl

end Width

/-! ### Moved columns -/

section Columns

variable {M} {scope scope' : List ColumnRef} {φ : ColumnRef → ColumnRef}

theorem env_column_of_idxOf {c : ColumnRef} (h : scope'.idxOf (φ c) = scope.idxOf c)
    (row : List V) : (M.env scope' row).column (φ c) = (M.env scope row).column c :=
  congrArg (M.cell row) h

theorem filtered_mapColumns {e : Expr} (h : ∀ c ∈ e.columns, scope'.idxOf (φ c) = scope.idxOf c)
    (rows : Rows V) : M.filtered scope' (e.mapColumns φ) rows = M.filtered scope e rows :=
  filter_congr fun row _ =>
    holds_mapColumns rfl fun c hc => env_column_of_idxOf (h c hc) row

/-- Expressions at several rows are moved together with the columns. -/
theorem projected_mapColumns {α : Type} {exprs : List Expr} {xs : List α} {f g : α → Env V}
    (hsupplied : ∀ x ∈ xs, (g x).supplied = (f x).supplied)
    (hcolumns : ∀ x ∈ xs, ∀ e ∈ exprs, ∀ c ∈ e.columns,
      (g x).column (φ c) = (f x).column c) :
    M.projected (exprs.map (Expr.mapColumns φ)) (xs.map g) = M.projected exprs (xs.map f) := by
  unfold projected
  rw [length_map, length_map]
  refine map_congr_left fun i _ => ?_
  rw [map_map]
  exact map_congr_left fun e he =>
    eval_mapColumns hsupplied (fun x hx => hcolumns x hx e he) i

theorem projected_env_mapColumns {exprs : List Expr}
    (h : ∀ e ∈ exprs, ∀ c ∈ e.columns, scope'.idxOf (φ c) = scope.idxOf c) (rows : Rows V) :
    M.projected (exprs.map (Expr.mapColumns φ)) (rows.map (M.env scope')) =
      M.projected exprs (rows.map (M.env scope)) :=
  projected_mapColumns (fun _ _ => rfl) fun row _ e he c hc =>
    env_column_of_idxOf (h e he c hc) row

theorem keyOf_mapColumns (e : Expr) : keyOf (e.mapColumns φ) = keyOf e := by
  cases e with
  | leaf l => cases l <;> rfl
  | app head args =>
      rw [Expr.mapColumns_app]
      rfl

/-- Moving the columns of a compound does not touch its targets. -/
theorem target_mapColumns (c : Compound) : M.target { c with
    filter := c.filter.map (Expr.mapColumns φ)
    sources := c.sources.map (Expr.mapColumns φ) } = M.target c := by
  funext key rows t
  cases t with
  | source i =>
      have hkey : ((c.sources.map (Expr.mapColumns φ))[i]?).bind keyOf =
          (c.sources[i]?).bind keyOf := by
        rw [getElem?_map]
        cases c.sources[i]? with
        | none => rfl
        | some e => exact keyOf_mapColumns e
      simp only [target, hkey]
  | call i => rfl

/-- A compound keeps its meaning if the values of its sources stay. -/
theorem compounded_of_sources [DecidableEq V] {c : Compound} {rows rows' : Rows V}
    (h : M.sources scope' { c with
        filter := c.filter.map (Expr.mapColumns φ)
        sources := c.sources.map (Expr.mapColumns φ) } rows' = M.sources scope c rows) :
    M.compounded scope' { c with
        filter := c.filter.map (Expr.mapColumns φ)
        sources := c.sources.map (Expr.mapColumns φ) } rows' = M.compounded scope c rows := by
  simp only [compounded, h, target_mapColumns]

/-- An operator keeps its meaning if its references move together with the columns. -/
theorem node_mapColumns [DecidableEq V] {op : Operator}
    (h : ∀ c ∈ op.columns, scope'.idxOf (φ c) = scope.idxOf c) (widths : List Nat)
    (inputs : List (Rows V)) :
    M.node (op.mapExprs (Expr.mapColumns φ)) scope' widths inputs =
      M.node op scope widths inputs := by
  have hexpr : ∀ e ∈ op.exprs, ∀ c ∈ e.columns, scope'.idxOf (φ c) = scope.idxOf c :=
    fun e he c hc => h c (Operator.mem_columns.mpr ⟨e, he, hc⟩)
  have hholds : ∀ e ∈ op.exprs, ∀ row : List V,
      M.holds (M.env scope' row) (e.mapColumns φ) = M.holds (M.env scope row) e :=
    fun e he row => holds_mapColumns rfl fun c hc => env_column_of_idxOf (hexpr e he c hc) row
  cases op with
  | project j => exact projected_env_mapColumns hexpr _
  | filter f => exact filtered_mapColumns (hexpr _ (mem_singleton_self _)) _
  | join j =>
      have hmatch := funext (hholds _ (mem_singleton_self _))
      simp only [Operator.mapExprs, node, hmatch]
  | tableFunction t =>
      have hargs := projected_env_mapColumns (M := M)
        (fun e he => hexpr e (mem_append_left _ he)) (inputs.headD [])
      simp only [Operator.mapExprs, node, tabled, hargs]
      exact projected_mapColumns (fun _ _ => rfl) fun x _ e he c hc =>
        env_column_of_idxOf (hexpr e (mem_append_right _ he) c hc) _
  | compound c =>
      refine compounded_of_sources ?_
      have hprojected := projected_env_mapColumns (M := M)
        fun e he => hexpr e (mem_append_right _ he)
      simp only [sources, hprojected]
      cases hfilter : c.filter with
      | none => rfl
      | some e =>
          have he : e ∈ Operator.exprs (.compound c) :=
            mem_append_left _ (hfilter ▸ mem_cons_self)
          simp only [Option.map_some, filtered_mapColumns (hexpr e he)]
  | leftDeepJoin j =>
      have hchained : M.chained scope' { j with
          condition := j.condition.mapColumns φ
          outer := j.outer.map (Option.map (Expr.mapColumns φ)) } = M.chained scope j := by
        funext first inputs
        refine foldl_ext _ _ _ fun rows input _ => ?_
        obtain ⟨⟨width, right⟩, level⟩ := input
        have houter : ∀ row : List V,
            (((j.outer.map (Option.map (Expr.mapColumns φ)))[level]?).getD none).all
              (M.holds (M.env scope' row)) =
            ((j.outer[level]?).getD none).all (M.holds (M.env scope row)) := by
          intro row
          rw [getElem?_map]
          cases ho : j.outer[level]? with
          | none => rfl
          | some o =>
              cases o with
              | none => rfl
              | some e =>
                  have he : e ∈ Operator.exprs (.leftDeepJoin j) :=
                    mem_cons_of_mem _ (mem_filterMap.mpr ⟨_, mem_of_getElem? ho, rfl⟩)
                  exact hholds e he row
        simp only [addInput, houter]
      have hcondition := filtered_mapColumns (M := M) (hexpr _ mem_cons_self)
      simp only [Operator.mapExprs, node, hchained, hcondition]
  | _ => rfl

end Columns

end Meaning

namespace Plan

variable {V : Type} [DecidableEq V]

/-- The rows of a node. -/
def rows (p : Plan) (M : Meaning V) : NodeId → Rows V :=
  p.fold [] fun id inputs =>
    M.node (p.op id) (p.columnsOf (p.reads id)) ((p.inputs id).map p.columnCount) inputs

variable {p : Plan} {M : Meaning V} {l : List NodeId} {id : NodeId}

/-- The rows of a node come from those of its inputs. -/
theorem Ordered.rows_eq (h : p.Ordered l) (hid : id ∈ l) :
    p.rows M id = M.node (p.op id) (p.columnsOf (p.reads id)) ((p.inputs id).map p.columnCount)
      ((p.inputs id).map (p.rows M)) :=
  h.fold_eq hid

/-- Only one assignment of rows comes from the rows of the inputs. -/
theorem Ordered.rows_unique (h : p.Ordered l) {g : NodeId → Rows V}
    (hg : ∀ id ∈ l, g id = M.node (p.op id) (p.columnsOf (p.reads id))
      ((p.inputs id).map p.columnCount) ((p.inputs id).map g)) :
    ∀ id ∈ l, p.rows M id = g id :=
  h.fold_unique hg

/-- The rows of a node are as wide as the node. -/
theorem Arranged.length_of_mem_rows (h : p.Arranged l) :
    ∀ id ∈ l, ∀ row ∈ p.rows M id, row.length = p.columnCount id := by
  refine h.induction fun id hid ih row hrow => ?_
  rw [h.rows_eq hid] at hrow
  rw [h.columnCount_eq hid]
  exact Meaning.length_of_mem_node (h.arity id hid) ih hrow

end Plan

end QueryPlan
