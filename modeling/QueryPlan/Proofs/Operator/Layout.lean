import QueryPlan.Operator
import QueryPlan.Proofs.Expr.Columns
/-!
# QueryPlan.Proofs.Operator.Layout

**What an operator shows and what it reads.** To its consumers an operator shows columns of its
own, those of its first input or those of all its inputs (`Operator.layout`). What it reads are
columns, in its expressions, and positions in the output of its input (`Operator.positions`).

A pass that moves columns changes the second part only: `Operator.mapExprs` and
`Operator.mapPositions` keep the layout and the number of inputs.
-/

namespace QueryPlan

/-- The columns that a node shows to its consumers. -/
inductive Layout
  /-- Columns of its own. -/
  | own (width : Nat) (names : List String)
  /-- The columns of the first input. -/
  | first
  /-- The columns of all inputs, one input after another. -/
  | all

namespace Operator

/-- The columns that an operator shows. -/
def layout : Operator → Layout
  | scan s => .own s.fields.length s.fields
  | materializedScan s =>
    .own s.columns.length ((List.range s.columns.length).map fun i => toString i)
  | values v => .own v.columns.length (v.columns.map ColumnInfo.name)
  | project j => .own j.exprs.length j.fields
  | aggregate a => .own a.width a.fields
  | compound c => .own c.targets.length c.fields
  | tableFunction t => .own t.results.length t.fields
  | filter _ | sort _ | union _ | modify _ => .first
  | join _ | leftDeepJoin _ => .all

/-- Whether the lists of an operator that run in parallel are of one length. -/
def FieldsMatch : Operator → Prop
  | project j => j.fields.length = j.exprs.length
  | aggregate a => a.fields.length = a.width
  | compound c => c.fields.length = c.targets.length
  | tableFunction t => t.fields.length = t.results.length
  | _ => True

instance : DecidablePred FieldsMatch := fun op => by
  cases op <;> unfold FieldsMatch <;> infer_instance

/-- The positions at which an operator reads its input, besides group keys. -/
def positions : Operator → List Nat
  | aggregate a => a.calls.flatMap AggregateCall.operands
  | sort s => s.collation.map SortKey.column
  | tableFunction t => t.cursorColumns
  | _ => []

/-- The leading columns by which an operator groups. -/
def groupKeys : Operator → List Nat
  | aggregate a => List.range a.groupCount
  | _ => []

/-- The positions of its input that an operator looks up. -/
def lookups (op : Operator) : List Nat := op.groupKeys ++ op.positions

/-- The operator with its expressions changed. -/
def mapExprs (f : Expr → Expr) : Operator → Operator
  | project j => project { j with exprs := j.exprs.map f }
  | filter g => filter { g with condition := f g.condition }
  | join j => join { j with condition := f j.condition }
  | tableFunction t =>
    tableFunction { t with args := t.args.map f, results := t.results.map f }
  | compound c => compound { c with filter := c.filter.map f, sources := c.sources.map f }
  | leftDeepJoin j =>
    leftDeepJoin { j with condition := f j.condition, outer := j.outer.map (Option.map f) }
  | op => op

/-- The operator with the positions changed at which it reads its input. -/
def mapPositions (f : Nat → Nat) : Operator → Operator
  | aggregate a => aggregate { a with
      calls := a.calls.map fun c => { c with operands := c.operands.map f } }
  | sort s => sort { s with
      collation := s.collation.map fun k => { k with column := f k.column } }
  | tableFunction t => tableFunction { t with cursorColumns := t.cursorColumns.map f }
  | op => op

section Changes

variable (f : Expr → Expr) (g : Nat → Nat) (op : Operator)

@[simp] theorem layout_mapExprs : (op.mapExprs f).layout = op.layout := by
  cases op <;> simp [mapExprs, layout]

@[simp] theorem arity_mapExprs : (op.mapExprs f).arity = op.arity := by
  cases op <;> rfl

@[simp] theorem isJoin_mapExprs : (op.mapExprs f).isJoin = op.isJoin := by
  cases op <;> rfl

theorem fieldsMatch_mapExprs (h : op.FieldsMatch) : (op.mapExprs f).FieldsMatch := by
  cases op <;> simp_all [mapExprs, FieldsMatch]

@[simp] theorem positions_mapExprs : (op.mapExprs f).positions = op.positions := by
  cases op <;> rfl

@[simp] theorem groupKeys_mapExprs : (op.mapExprs f).groupKeys = op.groupKeys := by
  cases op <;> rfl

theorem exprs_mapExprs : (op.mapExprs f).exprs = op.exprs.map f := by
  cases op with
  | compound c => cases h : c.filter <;> simp [mapExprs, exprs, h]
  | leftDeepJoin j =>
      simp only [mapExprs, exprs, List.map_cons, List.filterMap_map, List.map_filterMap]
      rfl
  | _ => simp [mapExprs, exprs]

@[simp] theorem layout_mapPositions : (op.mapPositions g).layout = op.layout := by
  cases op <;> simp [mapPositions, layout, Aggregate.width]

@[simp] theorem arity_mapPositions : (op.mapPositions g).arity = op.arity := by
  cases op <;> rfl

@[simp] theorem isJoin_mapPositions : (op.mapPositions g).isJoin = op.isJoin := by
  cases op <;> rfl

theorem fieldsMatch_mapPositions (h : op.FieldsMatch) : (op.mapPositions g).FieldsMatch := by
  cases op <;> simp_all [mapPositions, FieldsMatch, Aggregate.width]

@[simp] theorem exprs_mapPositions : (op.mapPositions g).exprs = op.exprs := by
  cases op <;> rfl

@[simp] theorem columns_mapPositions : (op.mapPositions g).columns = op.columns := by
  rw [columns, columns, exprs_mapPositions]

theorem positions_mapPositions : (op.mapPositions g).positions = op.positions.map g := by
  cases op with
  | aggregate a => simp [mapPositions, positions, List.flatMap_map, List.map_flatMap]
  | sort s =>
      simp only [mapPositions, positions, List.map_map]
      rfl
  | tableFunction t => rfl
  | _ => simp [mapPositions, positions]

@[simp] theorem groupKeys_mapPositions : (op.mapPositions g).groupKeys = op.groupKeys := by
  cases op <;> rfl

theorem mapExprs_mapExprs (f g : Expr → Expr) (op : Operator) :
    (op.mapExprs f).mapExprs g = op.mapExprs fun e => g (f e) := by
  cases op <;> simp [mapExprs, Function.comp_def]

theorem mapPositions_mapPositions (g h : Nat → Nat) (op : Operator) :
    (op.mapPositions g).mapPositions h = op.mapPositions fun i => h (g i) := by
  cases op <;> simp [mapPositions, Function.comp_def]

/-- Expressions and positions change independently. -/
theorem mapExprs_mapPositions (f : Expr → Expr) (g : Nat → Nat) (op : Operator) :
    (op.mapPositions g).mapExprs f = (op.mapExprs f).mapPositions g := by
  cases op <;> rfl

/-- Positions that stay change no operator. -/
theorem mapPositions_eq_self {g : Nat → Nat} {op : Operator} (h : ∀ i ∈ op.positions, g i = i) :
    op.mapPositions g = op := by
  have hlist : ∀ is : List Nat, (∀ i ∈ is, g i = i) → is.map g = is := fun is his =>
    (List.map_congr_left his).trans (List.map_id _)
  cases op with
  | aggregate a =>
      have hcalls : a.calls.map (fun c => { c with operands := c.operands.map g }) = a.calls :=
        (List.map_congr_left fun c hc => congrArg (fun is => { c with operands := is })
          (hlist _ fun i hi => h i (List.mem_flatMap.mpr ⟨c, hc, hi⟩))).trans (List.map_id _)
      rw [mapPositions, hcalls]
  | sort s =>
      have hkeys : s.collation.map (fun k => { k with column := g k.column }) = s.collation :=
        (List.map_congr_left fun k hk => congrArg (fun i => { k with column := i })
          (h _ (List.mem_map_of_mem hk))).trans (List.map_id _)
      rw [mapPositions, hkeys]
  | tableFunction t => rw [mapPositions, hlist t.cursorColumns h]
  | _ => rfl

/-- The number of inputs tells a node that shows all of them from the others. -/
theorem layout_eq_all_iff : op.layout = .all ↔ op.isJoin = true := by
  cases op <;> simp [layout, isJoin]

end Changes

theorem columns_mapExprs (f : ColumnRef → ColumnRef) (op : Operator) :
    (op.mapExprs (Expr.mapColumns f)).columns = op.columns.map f := by
  rw [columns, columns, exprs_mapExprs, List.flatMap_map, List.map_flatMap]
  exact List.flatMap_congr fun e _ => Expr.columns_mapColumns f e

theorem mem_columns {op : Operator} {c : ColumnRef} :
    c ∈ op.columns ↔ ∃ e ∈ op.exprs, c ∈ e.columns := List.mem_flatMap

/-- Only a projection has the expressions of a projection. -/
theorem project_of_mapExprs {f : Expr → Expr} {op : Operator} {j : Project}
    (h : op.mapExprs f = .project j) : ∃ j', op = .project j' ∧ j.exprs = j'.exprs.map f := by
  cases op <;> cases h
  exact ⟨_, rfl, rfl⟩

theorem filter_of_mapExprs {f : Expr → Expr} {op : Operator} {c : Filter}
    (h : op.mapExprs f = .filter c) : ∃ c', op = .filter c' := by
  cases op <;> cases h
  exact ⟨_, rfl⟩

theorem mapExprs_congr {f g : Expr → Expr} {op : Operator} (h : ∀ e ∈ op.exprs, f e = g e) :
    op.mapExprs f = op.mapExprs g := by
  cases op with
  | compound c =>
      simp only [exprs, List.mem_append, Option.mem_toList] at h
      simp only [mapExprs, compound.injEq, Compound.mk.injEq, and_true]
      exact ⟨Option.map_congr fun e he => h e (.inl he), List.map_congr_left fun e he => h e (.inr he)⟩
  | leftDeepJoin j =>
      simp only [exprs, List.mem_cons, List.mem_filterMap, id_eq, exists_eq_right] at h
      simp only [mapExprs, leftDeepJoin.injEq, LeftDeepJoin.mk.injEq, and_true]
      refine ⟨h _ (.inl rfl), List.map_congr_left fun o ho => Option.map_congr fun e he => ?_⟩
      exact h e (.inr (he ▸ ho))
  | tableFunction t =>
      simp only [exprs, List.mem_append] at h
      simp only [mapExprs, tableFunction.injEq, TableFunction.mk.injEq, true_and]
      exact ⟨List.map_congr_left fun e he => h e (.inl he),
        List.map_congr_left fun e he => h e (.inr he)⟩
  | project j =>
      simp only [mapExprs, project.injEq, Project.mk.injEq, and_true]
      exact List.map_congr_left h
  | filter g =>
      rw [mapExprs, mapExprs, h _ (List.mem_singleton_self _)]
  | join j =>
      rw [mapExprs, mapExprs, h _ (List.mem_singleton_self _)]
  | _ => rfl

theorem mapExprs_id (op : Operator) : op.mapExprs (fun e => e) = op := by
  cases op <;> simp [mapExprs]

/-- Without a computation that can refuse, a change of expressions is a plain one. -/
theorem mapExprsM_run (f : Expr → Expr) (op : Operator) :
    (op.mapExprsM (m := Id) fun e => f e).run = op.mapExprs f := by
  have hlist : ∀ es : List Expr, (es.mapM (m := Id) fun e => f e) = es.map f := by
    intro es
    induction es with
    | nil => rfl
    | cons e es ih =>
        rw [List.mapM_cons, ih]
        rfl
  have hoption : ∀ o : Option Expr, (o.mapM (m := Id) fun e => f e) = o.map f := by
    intro o
    cases o <;> rfl
  cases op with
  | project j => exact congrArg (fun es => project { j with exprs := es }) (hlist j.exprs)
  | tableFunction t =>
      exact congrArg₂ (fun args results => tableFunction { t with args := args, results := results })
        (hlist t.args) (hlist t.results)
  | compound c =>
      exact congrArg₂ (fun filter sources => compound { c with filter := filter, sources := sources })
        (hoption c.filter) (hlist c.sources)
  | leftDeepJoin j =>
      have houter : (j.outer.mapM (m := Id) fun o => o.mapM (m := Id) fun e => f e) =
          j.outer.map (Option.map f) := by
        induction j.outer with
        | nil => rfl
        | cons o os ih =>
            rw [List.mapM_cons, ih, hoption]
            rfl
      exact congrArg (fun os => leftDeepJoin { j with condition := f j.condition, outer := os })
        houter
  | _ => rfl

/-- If no expression is refused, a change of expressions succeeds. -/
theorem mapExprsM_ok {f : Expr → Result Expr} {g : Expr → Expr} {op : Operator}
    (h : ∀ e ∈ op.exprs, f e = .ok (g e)) : op.mapExprsM f = .ok (op.mapExprs g) := by
  have hoption : ∀ o : Option Expr, (∀ e ∈ o, f e = .ok (g e)) → o.mapM f = .ok (o.map g) := by
    intro o ho
    cases o with
    | none => rfl
    | some e => exact Result.bind_ok (ho e rfl)
  cases op with
  | project j => exact Result.bind_ok (Result.mapM_ok h)
  | filter c => exact Result.bind_ok (h _ (List.mem_singleton_self _))
  | join j => exact Result.bind_ok (h _ (List.mem_singleton_self _))
  | tableFunction t =>
      simp only [exprs, List.mem_append] at h
      rw [mapExprsM, Result.bind_ok (Result.mapM_ok fun e he => h e (.inl he)),
        Result.bind_ok (Result.mapM_ok fun e he => h e (.inr he))]
      rfl
  | compound c =>
      simp only [exprs, List.mem_append, Option.mem_toList] at h
      rw [mapExprsM, Result.bind_ok (hoption _ fun e he => h e (.inl he)),
        Result.bind_ok (Result.mapM_ok fun e he => h e (.inr he))]
      rfl
  | leftDeepJoin j =>
      simp only [exprs, List.mem_cons, List.mem_filterMap, id_eq, exists_eq_right] at h
      have houter : j.outer.mapM (fun o => o.mapM f) = .ok (j.outer.map (Option.map g)) :=
        Result.mapM_ok fun o ho => hoption o fun e he => h e (.inr (he ▸ ho))
      rw [mapExprsM, Result.bind_ok (h _ (.inl rfl)), Result.bind_ok houter]
      rfl
  | _ => rfl

/-- A change of expressions that succeeds has refused none of them. -/
theorem mapExprsM_inv {f : Expr → Result Expr} {op op' : Operator}
    (h : op.mapExprsM f = .ok op') : ∀ e ∈ op.exprs, ∃ e', f e = .ok e' := by
  have hoption : ∀ {o o' : Option Expr}, o.mapM f = .ok o' → ∀ e ∈ o, ∃ e', f e = .ok e' := by
    rintro o o' ho e ⟨⟩
    obtain ⟨e', he, -⟩ := Result.bind_eq_ok.mp ho
    exact ⟨e', he⟩
  have hlist : ∀ {es es' : List Expr}, es.mapM f = .ok es' → ∀ e ∈ es, ∃ e', f e = .ok e' := by
    intro es es' hes e he
    obtain ⟨e', -, he⟩ := Result.mapM_mem_left hes he
    exact ⟨e', he⟩
  intro e he
  cases op with
  | project j =>
      obtain ⟨es, hes, -⟩ := Result.bind_eq_ok.mp h
      exact hlist hes e he
  | filter c =>
      obtain ⟨e', he', -⟩ := Result.bind_eq_ok.mp h
      exact ⟨e', List.mem_singleton.mp he ▸ he'⟩
  | join j =>
      obtain ⟨e', he', -⟩ := Result.bind_eq_ok.mp h
      exact ⟨e', List.mem_singleton.mp he ▸ he'⟩
  | tableFunction t =>
      obtain ⟨args, hargs, h⟩ := Result.bind_eq_ok.mp h
      obtain ⟨results, hresults, -⟩ := Result.bind_eq_ok.mp h
      rcases List.mem_append.mp he with he | he
      · exact hlist hargs e he
      · exact hlist hresults e he
  | compound c =>
      obtain ⟨o, ho, h⟩ := Result.bind_eq_ok.mp h
      obtain ⟨sources, hsources, -⟩ := Result.bind_eq_ok.mp h
      rcases List.mem_append.mp he with he | he
      · exact hoption ho e (Option.mem_toList.mp he)
      · exact hlist hsources e he
  | leftDeepJoin j =>
      obtain ⟨condition, hcondition, h⟩ := Result.bind_eq_ok.mp h
      obtain ⟨outer, houter, -⟩ := Result.bind_eq_ok.mp h
      rcases List.mem_cons.mp he with rfl | he
      · exact ⟨condition, hcondition⟩
      · obtain ⟨o, ho, rfl⟩ := List.mem_filterMap.mp he
        obtain ⟨o', -, ho'⟩ := Result.mapM_mem_left houter ho
        exact hoption ho' e rfl
  | _ => exact absurd he List.not_mem_nil

/-- If no position is refused, a change of positions succeeds. -/
theorem mapPositionsM_ok {f : Nat → Result Nat} {g : Nat → Nat} {op : Operator}
    (h : ∀ i ∈ op.positions, f i = .ok (g i)) :
    op.mapPositionsM f = .ok (op.mapPositions g) := by
  cases op with
  | aggregate a =>
      have hcalls : a.calls.mapM (fun c => c.mapOperandsM f) =
          .ok (a.calls.map fun c => { c with operands := c.operands.map g }) :=
        Result.mapM_ok fun c hc => Result.bind_ok (Result.mapM_ok fun i hi =>
          h i (List.mem_flatMap.mpr ⟨c, hc, hi⟩))
      exact Result.bind_ok hcalls
  | sort s =>
      have hkeys : s.collation.mapM (fun k => do
            return ({ k with column := ← f k.column } : SortKey)) =
          .ok (s.collation.map fun k => { k with column := g k.column }) :=
        Result.mapM_ok fun k hk => Result.bind_ok (h _ (List.mem_map_of_mem hk))
      exact Result.bind_ok hkeys
  | tableFunction t => exact Result.bind_ok (Result.mapM_ok h)
  | _ => rfl

/-- A change of positions that succeeds has refused none of them. -/
theorem mapPositionsM_inv {f : Nat → Result Nat} {op op' : Operator}
    (h : op.mapPositionsM f = .ok op') : ∀ i ∈ op.positions, ∃ k, f i = .ok k := by
  intro i hi
  cases op with
  | aggregate a =>
      obtain ⟨calls, hcalls, -⟩ := Result.bind_eq_ok.mp h
      obtain ⟨c, hc, hi⟩ := List.mem_flatMap.mp hi
      obtain ⟨c', -, hc'⟩ := Result.mapM_mem_left hcalls hc
      obtain ⟨operands, hoperands, -⟩ := Result.bind_eq_ok.mp hc'
      obtain ⟨k, -, hk⟩ := Result.mapM_mem_left hoperands hi
      exact ⟨k, hk⟩
  | sort s =>
      obtain ⟨keys, hkeys, -⟩ := Result.bind_eq_ok.mp h
      obtain ⟨key, hkey, rfl⟩ := List.mem_map.mp hi
      obtain ⟨key', -, hkey'⟩ := Result.mapM_mem_left hkeys hkey
      obtain ⟨k, hk, -⟩ := Result.bind_eq_ok.mp hkey'
      exact ⟨k, hk⟩
  | tableFunction t =>
      obtain ⟨columns, hcolumns, -⟩ := Result.bind_eq_ok.mp h
      obtain ⟨k, -, hk⟩ := Result.mapM_mem_left hcolumns hi
      exact ⟨k, hk⟩
  | _ => exact absurd hi List.not_mem_nil

/-- A change of columns succeeds if it refuses none, and then it is a plain change. -/
theorem mapColumnsM_eq_ok {f : ColumnRef → Result ColumnRef} {op op' : Operator} :
    op.mapExprsM (Expr.mapColumnsM f) = .ok op' ↔
      (∀ c ∈ op.columns, ∃ d, f c = .ok d) ∧
        op' = op.mapExprs (Expr.mapColumns fun c => Result.valueOr c (f c)) := by
  have hplain : (∀ c ∈ op.columns, ∃ d, f c = .ok d) → op.mapExprsM (Expr.mapColumnsM f) =
      .ok (op.mapExprs (Expr.mapColumns fun c => Result.valueOr c (f c))) := by
    refine fun h => mapExprsM_ok fun e he => Expr.mapColumnsM_ok fun c hc => ?_
    obtain ⟨d, hd⟩ := h c (mem_columns.mpr ⟨e, he, hc⟩)
    exact Result.eq_ok_valueOr c hd
  constructor
  · intro h
    have hcolumns : ∀ c ∈ op.columns, ∃ d, f c = .ok d := by
      intro c hc
      obtain ⟨e, he, hc⟩ := mem_columns.mp hc
      obtain ⟨e', he'⟩ := mapExprsM_inv h e he
      exact ⟨_, (Expr.mapColumnsM_inv he').1 c hc⟩
    rw [hplain hcolumns] at h
    exact ⟨hcolumns, (Except.ok.inj h).symm⟩
  · rintro ⟨hcolumns, rfl⟩
    exact hplain hcolumns

/-- A change of positions succeeds if it refuses none, and then it is a plain change. -/
theorem mapPositionsM_eq_ok {f : Nat → Result Nat} {op op' : Operator} :
    op.mapPositionsM f = .ok op' ↔
      (∀ i ∈ op.positions, ∃ k, f i = .ok k) ∧
        op' = op.mapPositions fun i => Result.valueOr i (f i) := by
  have hplain : (∀ i ∈ op.positions, ∃ k, f i = .ok k) →
      op.mapPositionsM f = .ok (op.mapPositions fun i => Result.valueOr i (f i)) := by
    refine fun h => mapPositionsM_ok fun i hi => ?_
    obtain ⟨k, hk⟩ := h i hi
    exact Result.eq_ok_valueOr i hk
  constructor
  · intro h
    have hpositions := mapPositionsM_inv h
    rw [hplain hpositions] at h
    exact ⟨hpositions, (Except.ok.inj h).symm⟩
  · rintro ⟨hpositions, rfl⟩
    exact hplain hpositions

end Operator

end QueryPlan
