import QueryPlan.Expr.Basic
import QueryPlan.Proofs.Outcome
/-!
# QueryPlan.Proofs.Expr.Columns

**The columns of a changed expression.** A pass changes the references of an expression by a
function that may refuse a column. If it refuses none of the columns that occur, the outcome is
that of a plain function on columns (`mapColumnsM_ok`), and every outcome arises like this
(`mapColumnsM_inv`). So what follows speaks of `Expr.mapColumns` only, whose columns are those
of the expression, each changed.
-/

namespace QueryPlan

namespace Expr

/-- Induction over expressions, with the hypothesis for every argument of an application. -/
@[elab_as_elim]
theorem ind {motive : Expr → Prop} (leaf : ∀ l, motive (.leaf l))
    (app : ∀ head args, (∀ e ∈ args, motive e) → motive (.app head args)) (e : Expr) :
    motive e :=
  @Expr.rec motive (fun es => ∀ e ∈ es, motive e) leaf
    (fun head args ih => app head args ih) (fun _ h => absurd h List.not_mem_nil)
    (fun _ _ he hes _ h => (List.mem_cons.mp h).elim (fun h => h ▸ he) (hes _)) e

/-! ### Traversals of argument lists -/

theorem leavesAll_eq (es : List Expr) : leavesAll es = es.flatMap leaves := by
  induction es with
  | nil => rfl
  | cons e es ih => rw [leavesAll, ih, List.flatMap_cons]

theorem leaves_app (head : Head) (args : List Expr) :
    (app head args).leaves = args.flatMap leaves := by
  rw [leaves, leavesAll_eq]

theorem mapLeavesAll_eq (f : Leaf → Expr) (es : List Expr) :
    mapLeavesAll f es = es.map (mapLeaves f) := by
  induction es with
  | nil => rfl
  | cons e es ih => rw [mapLeavesAll, ih, List.map_cons]

theorem mapLeaves_app (f : Leaf → Expr) (head : Head) (args : List Expr) :
    (app head args).mapLeaves f = .app head (args.map (mapLeaves f)) := by
  rw [mapLeaves, mapLeavesAll_eq]

theorem mapLeavesAllM_eq {m : Type → Type} [Monad m] [LawfulMonad m] (f : Leaf → m Expr)
    (es : List Expr) : mapLeavesAllM f es = es.mapM (mapLeavesM f) := by
  induction es with
  | nil => rfl
  | cons e es ih => rw [mapLeavesAllM, ih, List.mapM_cons]

theorem mapLeavesM_app {m : Type → Type} [Monad m] [LawfulMonad m] (f : Leaf → m Expr)
    (head : Head) (args : List Expr) :
    (app head args).mapLeavesM f = do return .app head (← args.mapM (mapLeavesM f)) := by
  rw [mapLeavesM, mapLeavesAllM_eq]

theorem columns_app (head : Head) (args : List Expr) :
    (app head args).columns = args.flatMap columns := by
  rw [columns, leaves_app, List.filterMap_flatMap]
  rfl

theorem hasPositional_app (head : Head) (args : List Expr) :
    (app head args).hasPositional = args.any hasPositional := by
  rw [hasPositional, leaves_app, List.any_flatMap]
  rfl

theorem mem_columns_app {head : Head} {args : List Expr} {c : ColumnRef} :
    c ∈ (app head args).columns ↔ ∃ e ∈ args, c ∈ e.columns := by
  rw [columns_app, List.mem_flatMap]

/-! ### Changing leaves -/

/-- A change of leaves depends on nothing but the leaves that occur. -/
theorem mapLeavesM_congr {f g : Leaf → Result Expr} {e : Expr} (h : ∀ l ∈ e.leaves, f l = g l) :
    e.mapLeavesM f = e.mapLeavesM g := by
  induction e using ind with
  | leaf l => exact h l (List.mem_singleton_self l)
  | app head args ih =>
      have hargs : ∀ e ∈ args, e.mapLeavesM f = e.mapLeavesM g := fun e he =>
        ih e he fun l hl => h l (by rw [leaves_app]; exact List.mem_flatMap.mpr ⟨e, he, hl⟩)
      rw [mapLeavesM_app, mapLeavesM_app, Result.mapM_congr hargs]

theorem mapLeaves_leaf (e : Expr) : e.mapLeaves .leaf = e := by
  induction e using ind with
  | leaf l => rfl
  | app head args ih => rw [mapLeaves_app, List.map_congr_left (g := fun e => e) ih, List.map_id']

/-- If no leaf is refused, a change of leaves succeeds. -/
theorem mapLeavesM_ok {f : Leaf → Result Expr} {g : Leaf → Expr} {e : Expr}
    (h : ∀ l ∈ e.leaves, f l = .ok (g l)) : e.mapLeavesM f = .ok (e.mapLeaves g) := by
  induction e using ind with
  | leaf l =>
      rw [mapLeavesM, mapLeaves]
      exact h l (List.mem_singleton_self l)
  | app head args ih =>
      have hargs : ∀ e ∈ args, e.mapLeavesM f = .ok (e.mapLeaves g) := fun e he =>
        ih e he fun l hl => h l (by rw [leaves_app]; exact List.mem_flatMap.mpr ⟨e, he, hl⟩)
      rw [mapLeavesM_app, mapLeaves_app, Result.bind_ok (Result.mapM_ok hargs)]
      rfl

/-- A change of leaves succeeds if it refuses none of them. -/
theorem exists_mapLeavesM {f : Leaf → Result Expr} {e : Expr}
    (h : ∀ l ∈ e.leaves, ∃ d, f l = .ok d) : ∃ e', e.mapLeavesM f = .ok e' := by
  refine ⟨_, mapLeavesM_ok (g := fun l => Result.valueOr (leaf l) (f l)) fun l hl => ?_⟩
  obtain ⟨d, hd⟩ := h l hl
  exact Result.eq_ok_valueOr _ hd

/-- A change of leaves that succeeds has refused none of them. -/
theorem mapLeavesM_inv {f : Leaf → Result Expr} {e e' : Expr} (h : e.mapLeavesM f = .ok e') :
    ∀ l ∈ e.leaves, ∃ e, f l = .ok e := by
  induction e using ind generalizing e' with
  | leaf l =>
      intro k hk
      rw [leaves, List.mem_singleton] at hk
      rw [mapLeavesM] at h
      exact ⟨e', hk ▸ h⟩
  | app head args ih =>
      intro l hl
      rw [leaves_app, List.mem_flatMap] at hl
      obtain ⟨e, he, hl⟩ := hl
      rw [mapLeavesM_app, Result.bind_eq_ok] at h
      obtain ⟨args', hargs, -⟩ := h
      obtain ⟨d, -, hd⟩ := Result.mapM_mem_left hargs he
      exact ih e he hd l hl

/-- Every leaf comes from what was put in place of a leaf. -/
theorem mem_leaves_of_mapLeavesM {f : Leaf → Result Expr} {e e' : Expr}
    (h : e.mapLeavesM f = .ok e') :
    ∀ k ∈ e'.leaves, ∃ l ∈ e.leaves, ∃ d, f l = .ok d ∧ k ∈ d.leaves := by
  induction e using ind generalizing e' with
  | leaf l =>
      rw [mapLeavesM] at h
      exact fun k hk => ⟨l, List.mem_singleton_self l, e', h, hk⟩
  | app head args ih =>
      rw [mapLeavesM_app, Result.bind_eq_ok] at h
      obtain ⟨args', hargs, h⟩ := h
      obtain rfl := Result.pure_eq_ok.mp h
      intro k hk
      rw [leaves_app, List.mem_flatMap] at hk
      obtain ⟨d, hd, hk⟩ := hk
      obtain ⟨e, he, hd⟩ := Result.mapM_mem_right hargs hd
      obtain ⟨l, hl, hput⟩ := ih e he hd k hk
      refine ⟨l, ?_, hput⟩
      rw [leaves_app]
      exact List.mem_flatMap.mpr ⟨e, he, hl⟩

/-! ### Changing columns -/

@[simp] theorem mapColumns_leaf (f : ColumnRef → ColumnRef) (l : Leaf) :
    (leaf l).mapColumns f = match l with
      | .column c => .column (f c)
      | l => .leaf l := by
  cases l <;> rfl

@[simp] theorem mapColumns_app (f : ColumnRef → ColumnRef) (head : Head) (args : List Expr) :
    (app head args).mapColumns f = .app head (args.map (mapColumns f)) :=
  mapLeaves_app _ head args

theorem leaves_mapColumns (f : ColumnRef → ColumnRef) (e : Expr) :
    (e.mapColumns f).leaves = e.leaves.map fun
      | .column c => .column (f c)
      | l => l := by
  induction e using ind with
  | leaf l => cases l <;> rfl
  | app head args ih =>
      rw [mapColumns_app, leaves_app, leaves_app, List.flatMap_map, List.map_flatMap]
      exact List.flatMap_congr ih

theorem columns_mapColumns (f : ColumnRef → ColumnRef) (e : Expr) :
    (e.mapColumns f).columns = e.columns.map f := by
  induction e using ind with
  | leaf l => cases l <;> rfl
  | app head args ih =>
      rw [mapColumns_app, columns_app, columns_app, List.flatMap_map, List.map_flatMap]
      exact List.flatMap_congr ih

theorem hasPositional_mapColumns (f : ColumnRef → ColumnRef) (e : Expr) :
    (e.mapColumns f).hasPositional = e.hasPositional := by
  induction e using ind with
  | leaf l => cases l <;> rfl
  | app head args ih =>
      rw [mapColumns_app, hasPositional_app, hasPositional_app, List.any_map]
      rw [Bool.eq_iff_iff, List.any_eq_true, List.any_eq_true]
      constructor
      · rintro ⟨e, he, h⟩
        exact ⟨e, he, ih e he ▸ h⟩
      · rintro ⟨e, he, h⟩
        exact ⟨e, he, (ih e he).trans h⟩

theorem hasPositional_eq_false_iff {e : Expr} :
    e.hasPositional = false ↔ ∀ l ∈ e.leaves, l.isPositional = false := by
  rw [hasPositional, List.any_eq_false]
  simp

theorem mapColumns_congr {f g : ColumnRef → ColumnRef} {e : Expr}
    (h : ∀ c ∈ e.columns, f c = g c) : e.mapColumns f = e.mapColumns g := by
  induction e using ind with
  | leaf l =>
      cases l with
      | column c => exact congrArg column (h c (by simp [columns, leaves, Leaf.column?]))
      | _ => rfl
  | app head args ih =>
      rw [mapColumns_app, mapColumns_app]
      congr 1
      exact List.map_congr_left fun e he =>
        ih e he fun c hc => h c (mem_columns_app.mpr ⟨e, he, hc⟩)

theorem mapColumns_id (e : Expr) : e.mapColumns (fun c => c) = e := by
  induction e using ind with
  | leaf l => cases l <;> rfl
  | app head args ih =>
      rw [mapColumns_app, List.map_congr_left (g := fun e => e) ih, List.map_id']

theorem mapColumns_mapColumns (f g : ColumnRef → ColumnRef) (e : Expr) :
    (e.mapColumns f).mapColumns g = e.mapColumns fun c => g (f c) := by
  induction e using ind with
  | leaf l => cases l <;> rfl
  | app head args ih =>
      simp only [mapColumns_app, List.map_map, app.injEq, true_and]
      exact List.map_congr_left ih

/-- A change of columns acts on leaves. -/
theorem mem_columns_iff {c : ColumnRef} {e : Expr} : c ∈ e.columns ↔ .column c ∈ e.leaves := by
  rw [columns, List.mem_filterMap]
  constructor
  · rintro ⟨l, hl, hc⟩
    cases l with
    | column d => exact Option.some.inj hc ▸ hl
    | _ => cases hc
  · exact fun h => ⟨_, h, rfl⟩

/-- If no column is refused, a change of columns succeeds. -/
theorem mapColumnsM_ok {f : ColumnRef → Result ColumnRef} {g : ColumnRef → ColumnRef}
    {e : Expr} (h : ∀ c ∈ e.columns, f c = .ok (g c)) :
    e.mapColumnsM f = .ok (e.mapColumns g) := by
  refine mapLeavesM_ok fun l hl => ?_
  cases l with
  | column c => exact Result.bind_ok (h c (mem_columns_iff.mpr hl))
  | _ => rfl

/-- A change of columns that succeeds has refused none of them. -/
theorem mapColumnsM_inv {f : ColumnRef → Result ColumnRef} {e e' : Expr}
    (h : e.mapColumnsM f = .ok e') :
    (∀ c ∈ e.columns, f c = .ok (Result.valueOr c (f c))) ∧
      e' = e.mapColumns fun c => Result.valueOr c (f c) := by
  have hcolumns : ∀ c ∈ e.columns, f c = .ok (Result.valueOr c (f c)) := by
    intro c hc
    obtain ⟨d, hd⟩ := mapLeavesM_inv h _ (mem_columns_iff.mp hc)
    obtain ⟨a, ha, -⟩ := Result.bind_eq_ok.mp hd
    exact Result.eq_ok_valueOr c ha
  refine ⟨hcolumns, ?_⟩
  rw [mapColumnsM_ok hcolumns] at h
  exact (Except.ok.inj h).symm

theorem exists_of_isColumn {e : Expr} (h : e.isColumn = true) : ∃ c, e = .column c := by
  unfold isColumn at h
  split at h
  · exact ⟨_, rfl⟩
  · cases h

@[simp] theorem isColumn_mapColumns (f : ColumnRef → ColumnRef) (e : Expr) :
    (e.mapColumns f).isColumn = e.isColumn := by
  cases e with
  | leaf l => cases l <;> rfl
  | app head args =>
      rw [mapColumns_app]
      rfl

end Expr

end QueryPlan
