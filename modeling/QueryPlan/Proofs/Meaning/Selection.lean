import QueryPlan.Proofs.Meaning.Rows
/-!
# QueryPlan.Proofs.Meaning.Selection

**Rows of which some columns are selected.** A node that makes columns of its own reads its input by
references, by positions and by leading group keys. It makes the same rows from rows with other
columns, if all three find the values that they found (`Meaning.node_of_own`).
-/

namespace QueryPlan

open List

namespace Meaning

variable {V : Type} (M : Meaning V)

/-- The values of a row at some places. -/
def select (places : List Nat) (row : List V) : List V := places.map (M.cell row)

variable {M}

theorem cell_select {places : List Nat} {i k : Nat} (h : places[i]? = some k) (row : List V) :
    M.cell (M.select places row) i = M.cell row k := by
  rw [cell, select, getElem?_map, h]
  rfl

theorem length_select (places : List Nat) (row : List V) :
    (M.select places row).length = places.length := length_map _

/-- All places of a row select the row. -/
theorem select_range (row : List V) : M.select (range row.length) row = row := by
  refine ext_getElem? fun i => ?_
  rw [select, getElem?_map]
  by_cases hi : i < row.length
  · rw [getElem?_range hi, getElem?_eq_getElem hi, Option.map_some, cell, getElem?_eq_getElem hi]
    rfl
  · rw [getElem?_eq_none (by simpa using hi), getElem?_eq_none (Nat.le_of_not_lt hi)]
    rfl

/-- Of a row in two parts, columns are selected in either part. -/
theorem select_append {left right : List Nat} {a : List V} (h : ∀ i ∈ left, i < a.length)
    (b : List V) : M.select (left ++ right.map (a.length + ·)) (a ++ b) =
      M.select left a ++ M.select right b := by
  unfold select
  rw [map_append, map_map]
  refine congrArg₂ (· ++ ·) (map_congr_left fun i hi => ?_) (map_congr_left fun i _ => ?_)
  · rw [cell, getElem?_append_left (h i hi)]
    rfl
  · rw [Function.comp_apply, cell, getElem?_append_right (Nat.le_add_right _ _),
      Nat.add_sub_cancel_left]
    rfl

theorem cell_replicate_null (width i : Nat) : M.cell (replicate width M.null) i = M.null := by
  rw [cell, getElem?_replicate]
  split <;> rfl

/-- A row of nulls stays one. -/
theorem select_replicate_null (places : List Nat) (width : Nat) :
    M.select places (replicate width M.null) = replicate places.length M.null :=
  (map_congr_left fun i _ => cell_replicate_null width i).trans map_const'

/-- The values of columns at every row are a selection if the columns are found at the places. -/
theorem projected_columns (cs : List ColumnRef) (envs : List (Env V)) :
    M.projected (cs.map Expr.column) envs = envs.map fun env => cs.map env.column := by
  refine ext_getElem? fun i => ?_
  rw [projected, getElem?_map, getElem?_map]
  by_cases hi : i < envs.length
  · rw [getElem?_range hi, getElem?_eq_getElem hi, Option.map_some, Option.map_some, map_map]
    refine congrArg some (map_congr_left fun c _ => ?_)
    simp [eval, hi, leafValue]
  · rw [getElem?_eq_none (by simpa using hi), getElem?_eq_none (Nat.le_of_not_lt hi)]
    rfl

/-! ### Groups -/

/-- Rows that are read off the same things in two ways fall into the same groups if their keys are
the same. A group with a key has rows, and they have this key. -/
theorem exists_groups [DecidableEq V] {α : Type} {count : Nat} {xs : List α} {f g : α → List V}
    (h : ∀ x ∈ xs, M.fit count (g x) = M.fit count (f x)) :
    ∃ parts : List (List V × List α), (∀ part ∈ parts, part.2 ⊆ xs) ∧
      (count ≠ 0 → ∀ part ∈ parts,
        part.2 ≠ [] ∧ ∀ x ∈ part.2, M.fit count (f x) = part.1) ∧
      M.groups count (xs.map f) = parts.map (fun part => (part.1, part.2.map f)) ∧
      M.groups count (xs.map g) = parts.map fun part => (part.1, part.2.map g) := by
  unfold groups
  split
  · next hcount => exact ⟨[([], xs)], by simp, fun hne => absurd hcount hne, rfl, rfl⟩
  · refine ⟨(xs.map fun x => M.fit count (f x)).eraseDups.map fun key =>
      (key, xs.filter fun x => M.fit count (f x) = key), ?_, fun _ => ?_, ?_, ?_⟩
    · intro part hpart
      obtain ⟨key, -, rfl⟩ := mem_map.mp hpart
      exact filter_subset_self _
    · -- A key is the key of a row.
      intro part hpart
      obtain ⟨key, hkey, rfl⟩ := mem_map.mp hpart
      obtain ⟨x, hx, hfit⟩ := mem_map.mp (mem_eraseDups.mp hkey)
      exact ⟨ne_nil_of_mem (mem_filter.mpr ⟨hx, decide_eq_true hfit⟩),
        fun y hy => of_decide_eq_true (mem_filter.mp hy).2⟩
    · simp only [map_map, filter_map]
      rfl
    · have hkeys : xs.map (fun x => M.fit count (g x)) = xs.map fun x => M.fit count (f x) :=
        map_congr_left h
      simp only [map_map, filter_map, Function.comp_def, hkeys]
      refine map_congr_left fun key _ => congrArg (fun ys : List α => (key, ys.map g)) ?_
      exact filter_congr fun x hx => by rw [h x hx]

/-- A call has the same value if it finds its operands. -/
theorem called_map {α : Type} {xs : List α} {f g : α → List V} {c : AggregateCall}
    {ψ : Nat → Nat} (h : ∀ x ∈ xs, ∀ i ∈ c.operands, M.cell (g x) (ψ i) = M.cell (f x) i) :
    M.called (xs.map g) { c with operands := c.operands.map ψ } = M.called (xs.map f) c := by
  unfold called
  refine congrArg _ ?_
  rw [map_map, map_map]
  refine map_congr_left fun x hx => ?_
  rw [Function.comp_apply, map_map]
  exact map_congr_left (h x hx)

/-! ### Nodes with columns of their own -/

section Own

variable {α : Type} {scope scope' : List ColumnRef} {φ : ColumnRef → ColumnRef} {xs : List α}
  {f g : α → List V}

theorem projected_of_columns {exprs : List Expr} (h : ∀ x ∈ xs, ∀ e ∈ exprs, ∀ c ∈ e.columns,
      M.cell (g x) (scope'.idxOf (φ c)) = M.cell (f x) (scope.idxOf c)) :
    M.projected (exprs.map (Expr.mapColumns φ)) ((xs.map g).map (M.env scope')) =
      M.projected exprs ((xs.map f).map (M.env scope)) := by
  rw [map_map, map_map]
  exact projected_mapColumns (fun _ _ => rfl) h

theorem sources_of_columns {c : Compound} (h : ∀ x ∈ xs, ∀ r ∈ (Operator.compound c).columns,
      M.cell (g x) (scope'.idxOf (φ r)) = M.cell (f x) (scope.idxOf r)) :
    M.sources scope' { c with
        filter := c.filter.map (Expr.mapColumns φ)
        sources := c.sources.map (Expr.mapColumns φ) } (xs.map g) =
      M.sources scope c (xs.map f) := by
  have hexprs : ∀ e ∈ c.filter.toList ++ c.sources, ∀ x ∈ xs, ∀ r ∈ e.columns,
      M.cell (g x) (scope'.idxOf (φ r)) = M.cell (f x) (scope.idxOf r) :=
    fun e he x hx r hr => h x hx r (Operator.mem_columns.mpr ⟨e, he, hr⟩)
  unfold sources
  cases hfilter : c.filter with
  | none => exact projected_of_columns fun x hx e he => hexprs e (mem_append_right _ he) x hx
  | some e =>
      have hpassed : (xs.filter fun x => M.holds (M.env scope' (g x)) (e.mapColumns φ)) =
          xs.filter fun x => M.holds (M.env scope (f x)) e :=
        filter_congr fun x hx => holds_mapColumns rfl (hexprs e (by simp [hfilter]) x hx)
      simp only [Option.map_some, filtered, filter_map, Function.comp_def, hpassed]
      exact projected_of_columns fun x hx e he =>
        hexprs e (mem_append_right _ he) x (mem_filter.mp hx).1

/-- The rows of a table function, from the values that its arguments and cursor columns have. -/
theorem tabled_of_columns {t : TableFunction} {ψ : Nat → Nat}
    (hcolumns : ∀ x ∈ xs, ∀ c ∈ (Operator.tableFunction t).columns,
      M.cell (g x) (scope'.idxOf (φ c)) = M.cell (f x) (scope.idxOf c))
    (hpositions : ∀ x ∈ xs, ∀ i ∈ t.cursorColumns, M.cell (g x) (ψ i) = M.cell (f x) i) :
    M.tabled scope' { t with
        args := t.args.map (Expr.mapColumns φ)
        results := t.results.map (Expr.mapColumns φ)
        cursorColumns := t.cursorColumns.map ψ } (xs.map g) = M.tabled scope t (xs.map f) := by
  have hexprs : ∀ e ∈ t.args ++ t.results, ∀ x ∈ xs, ∀ c ∈ e.columns,
      M.cell (g x) (scope'.idxOf (φ c)) = M.cell (f x) (scope.idxOf c) :=
    fun e he x hx c hc => hcolumns x hx c (Operator.mem_columns.mpr ⟨e, he, hc⟩)
  have hargs : M.projected (t.args.map (Expr.mapColumns φ)) ((xs.map g).map (M.env scope')) =
      M.projected t.args ((xs.map f).map (M.env scope)) :=
    projected_of_columns fun x hx e he => hexprs e (mem_append_left _ he) x hx
  have hcursor : ((xs.map g).map fun row => (t.cursorColumns.map ψ).map (M.cell row)) =
      (xs.map f).map fun row => t.cursorColumns.map (M.cell row) := by
    rw [map_map, map_map]
    refine map_congr_left fun x hx => ?_
    rw [Function.comp_apply, map_map]
    exact map_congr_left (hpositions x hx)
  unfold tabled
  simp only [hargs, hcursor]
  refine projected_mapColumns (fun _ _ => rfl) fun call _ e he c hc => ?_
  -- A call for no row finds null everywhere.
  change M.cell (((xs.map g)[call.1]?).getD []) _ = M.cell (((xs.map f)[call.1]?).getD []) _
  rw [getElem?_map, getElem?_map]
  cases hx : xs[call.1]? with
  | none => rfl
  | some x => exact hexprs e (mem_append_right _ he) x (mem_of_getElem? hx) c hc

/-- A node with columns of its own that reads other rows, and finds in them the values that it
found, makes the same rows. -/
theorem node_of_own [DecidableEq V] {op : Operator} {ψ : Nat → Nat} {width : Nat}
    {names : List String} (hop : op.layout = .own width names)
    (hcolumns : ∀ x ∈ xs, ∀ c ∈ op.columns,
      M.cell (g x) (scope'.idxOf (φ c)) = M.cell (f x) (scope.idxOf c))
    (hpositions : ∀ x ∈ xs, ∀ i ∈ op.positions, M.cell (g x) (ψ i) = M.cell (f x) i)
    (hkeys : ∀ a, op = .aggregate a → ∀ x ∈ xs,
      M.fit a.groupCount (g x) = M.fit a.groupCount (f x)) (widths widths' : List Nat) :
    M.node ((op.mapExprs (Expr.mapColumns φ)).mapPositions ψ) scope' widths' [xs.map g] =
      M.node op scope widths [xs.map f] := by
  cases op with
  | project j =>
      exact projected_of_columns fun x hx e he c hc =>
        hcolumns x hx c (Operator.mem_columns.mpr ⟨e, he, hc⟩)
  | aggregate a =>
      obtain ⟨parts, hsub, -, hf, hg⟩ := exists_groups (hkeys a rfl)
      have hcalls : ∀ part ∈ parts, ∀ c ∈ a.calls, M.called (part.2.map g)
          { c with operands := c.operands.map ψ } = M.called (part.2.map f) c :=
        fun part hpart c hc => called_map fun x hx i hi =>
          hpositions x (hsub part hpart hx) i (mem_flatMap.mpr ⟨c, hc, hi⟩)
      simp only [Operator.mapExprs, Operator.mapPositions, node, headD_cons, hf, hg, map_map]
      refine map_congr_left fun part hpart => congrArg (M.fit a.groupCount part.1 ++ ·) ?_
      exact map_congr_left (hcalls part hpart)
  | tableFunction t => exact tabled_of_columns hcolumns hpositions
  | compound c => exact compounded_of_sources (sources_of_columns hcolumns)
  | scan s | materializedScan s | values v => rfl
  | filter _ | join _ | sort _ | modify _ | union _ | leftDeepJoin _ => cases hop

end Own

end Meaning

/-- All columns of the rows of a node. -/
theorem Plan.Arranged.map_select_range {V : Type} [DecidableEq V] {M : Meaning V} {p : Plan}
    {l : List NodeId} (h : p.Arranged l) {id : NodeId} (hid : id ∈ l) :
    (p.rows M id).map (M.select (range (p.columnCount id))) = p.rows M id := by
  refine (map_congr_left fun row hrow => ?_).trans (map_id _)
  rw [← h.length_of_mem_rows id hid row hrow]
  exact Meaning.select_range row

end QueryPlan
