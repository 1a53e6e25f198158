import QueryPlan.Proofs.Expr.Subqueries
import QueryPlan.Proofs.Operator.Layout
/-!
# QueryPlan.Proofs.Operator.Traversal

**What is read is what is rewritten.** Some functions read the references of an expression, others
put something in their place, and each of them walks over the expression by itself. If one of them
missed an argument that the other one finds, a pass would move less than checks and usage analysis
have seen. So for every visitor, in every lawful monad, reading what a rewriting gives is the same
as running the visitor over what was read before (`Expr.columns_mapColumnsM`,
`Operator.exprs_mapExprsM`). That fixes the references, their order and the order of the effects.

What a rewriting leaves alone is said by a relation on expressions (`Expr.Recolumned`), which a
rewriting does not come into.
-/

namespace QueryPlan

open List

section Monads

variable {m : Type → Type} [Monad m] [LawfulMonad m]

/-- A list is read behind a visitor as it is if each element is. -/
theorem flatMap_mapM {α β γ δ : Type} {visit : α → m β} {read : α → List γ} {read' : β → List δ}
    {f : γ → m δ} {as : List α} (h : ∀ a ∈ as, read' <$> visit a = (read a).mapM f) :
    List.flatMap read' <$> as.mapM visit = (as.flatMap read).mapM f := by
  induction as with
  | nil => simp
  | cons a as ih =>
      obtain ⟨ha, has⟩ := forall_mem_cons.mp h
      rw [flatMap_cons, mapM_append, ← ha, ← ih has]
      simp

theorem toList_mapM {α β : Type} (f : α → m β) (o : Option α) :
    Option.toList <$> o.mapM f = o.toList.mapM f := by
  cases o <;> simp

namespace Expr

theorem columns_leaf (l : Leaf) : (leaf l).columns = l.column?.toList := by
  cases l <;> rfl

/-- The columns of a rewritten expression are those of the expression, each visited. -/
theorem columns_mapColumnsM (f : ColumnRef → m ColumnRef) (e : Expr) :
    columns <$> e.mapColumnsM f = e.columns.mapM f := by
  induction e using ind with
  | leaf l => cases l <;> simp [mapColumnsM, mapLeavesM, columns_leaf, Leaf.column?]
  | app head args ih =>
      rw [columns_app, ← flatMap_mapM ih, mapColumnsM, mapLeavesM_app]
      simp [columns_app]

end Expr

namespace Operator

/-- The expressions of a rewritten operator are those of the operator, each visited. -/
theorem exprs_mapExprsM (f : Expr → m Expr) (op : Operator) :
    exprs <$> op.mapExprsM f = op.exprs.mapM f := by
  cases op with
  | compound c =>
      rw [exprs, mapM_append, ← toList_mapM]
      simp [mapExprsM, exprs]
  | leftDeepJoin j =>
      have houter : filterMap id <$> (j.outer.mapM fun o => o.mapM f) =
          (j.outer.filterMap id).mapM f := by
        rw [filterMap_eq_flatMap_toList, funext (filterMap_eq_flatMap_toList id)]
        exact flatMap_mapM fun o _ => toList_mapM f o
      rw [exprs, mapM_cons, ← houter]
      simp [mapExprsM, exprs]
  | _ => simp [mapExprsM, exprs]

end Operator

end Monads

/-! ### Visitors that write down what they meet -/

/-- Changes a value and writes it down. -/
def recording {α β : Type} (f : α → β) (a : α) : StateM (List α) β := do
  modify (· ++ [a])
  return f a

theorem mapM_records {α β γ : Type} {visit : α → StateM (List γ) β} {g : α → β}
    {read : α → List γ} {as : List α}
    (h : ∀ a ∈ as, ∀ seen, (visit a).run seen = pure (g a, seen ++ read a)) (seen : List γ) :
    (as.mapM visit).run seen = pure (as.map g, seen ++ as.flatMap read) := by
  induction as generalizing seen with
  | nil => simp
  | cons a as ih =>
      obtain ⟨ha, has⟩ := forall_mem_cons.mp h
      simp [ha, ih has _]

theorem Expr.mapColumnsM_recording (f : ColumnRef → ColumnRef) (e : Expr) (seen : List ColumnRef) :
    (e.mapColumnsM (recording f)).run seen = pure (e.mapColumns f, seen ++ e.columns) := by
  induction e using ind generalizing seen with
  | leaf l => cases l <;> simp [mapColumnsM, mapLeavesM, columns_leaf, Leaf.column?, recording]
  | app head args ih =>
      have hargs := mapM_records ih seen
      rw [mapColumnsM, mapLeavesM_app, StateT.run_bind, ← mapColumnsM, hargs]
      simp [columns_app]

theorem Operator.mapExprsM_recording (g : Expr → Expr) (op : Operator) (seen : List Expr) :
    (op.mapExprsM (recording g)).run seen = pure (op.mapExprs g, seen ++ op.exprs) := by
  have hone : ∀ e seen, (recording g e).run seen = pure (g e, seen ++ [e]) := fun _ _ => rfl
  have hlist : ∀ (es : List Expr) seen,
      (es.mapM (recording g)).run seen = pure (es.map g, seen ++ es) := fun es seen => by
    simpa using mapM_records (fun e (_ : e ∈ es) => hone e) seen
  have hoption : ∀ (o : Option Expr) seen,
      (o.mapM (recording g)).run seen = pure (o.map g, seen ++ o.toList) := fun o seen => by
    cases o <;> simp [hone]
  have houter : ∀ (os : List (Option Expr)) seen,
      (os.mapM fun o : Option Expr => o.mapM (recording g)).run seen =
        pure (os.map (Option.map g), seen ++ os.filterMap id) := fun os seen => by
    rw [filterMap_eq_flatMap_toList]
    exact mapM_records (fun o _ => hoption o) seen
  cases op <;> simp [mapExprsM, mapExprs, exprs, hone, hlist, hoption, houter]

/-! ### What stays -/

theorem forall₂_congr_of_mem {α β : Type} {R S : α → β → Prop} {as : List α} {bs : List β}
    (h : ∀ a ∈ as, ∀ b, R a b ↔ S a b) : Forall₂ R as bs ↔ Forall₂ S as bs := by
  constructor
  · intro hR
    exact ((forall₂_and_left _ _).mpr ⟨h, hR⟩).imp fun _ _ hab => (hab.1 _).mp hab.2
  · intro hS
    exact ((forall₂_and_left _ _).mpr ⟨h, hS⟩).imp fun _ _ hab => (hab.1 _).mpr hab.2

/-- Two expressions are the same but for their columns, which stand in a relation place by place.
What is applied is the same, with its type, its order and the kinds of its bounds, and so are
constants, positions, supplied values and subqueries. -/
inductive Expr.Recolumned (R : ColumnRef → ColumnRef → Prop) : Expr → Expr → Prop
  | column {c d : ColumnRef} : R c d → Recolumned R (.column c) (.column d)
  | other {l : Leaf} : l.column? = none → Recolumned R (.leaf l) (.leaf l)
  | app {head : Head} {args args' : List Expr} :
    Forall₂ (Recolumned R) args args' → Recolumned R (.app head args) (.app head args')

namespace Expr

variable {R : ColumnRef → ColumnRef → Prop} {e e' : Expr}

theorem recolumned_leaf {l : Leaf} (hl : l.column? = none) :
    (leaf l).Recolumned R e' ↔ e' = leaf l := by
  constructor
  · intro h
    cases h with
    | column => cases hl
    | other => rfl
  · rintro rfl
    exact .other hl

theorem recolumned_column {c : ColumnRef} :
    (column c).Recolumned R e' ↔ ∃ d, R c d ∧ e' = column d := by
  constructor
  · intro h
    cases h with
    | column hcd => exact ⟨_, hcd, rfl⟩
    | other hl => cases hl
  · rintro ⟨d, hcd, rfl⟩
    exact .column hcd

theorem recolumned_app {head : Head} {args : List Expr} :
    (app head args).Recolumned R e' ↔ ∃ args', Forall₂ (Recolumned R) args args' ∧
      e' = app head args' := by
  constructor
  · intro h
    cases h with
    | app hargs => exact ⟨_, hargs, rfl⟩
  · rintro ⟨args', hargs, rfl⟩
    exact .app hargs

/-- A visitor that may refuse columns rewrites an expression into the only one that has in the place
of each column what the visitor gives for it, and is the same otherwise. -/
theorem mapColumnsM_eq_ok_iff {f : ColumnRef → Result ColumnRef} :
    e.mapColumnsM f = .ok e' ↔ e.Recolumned (fun c d => f c = .ok d) e' := by
  induction e using ind generalizing e' with
  | leaf l =>
      cases l with
      | column c =>
          rw [recolumned_column, mapColumnsM, mapLeavesM, Result.bind_eq_ok]
          exact exists_congr fun d => and_congr_right fun _ => Result.pure_eq_ok.trans eq_comm
      | _ =>
          rw [recolumned_leaf rfl, mapColumnsM, mapLeavesM]
          exact Result.pure_eq_ok.trans eq_comm
  | app head args ih =>
      -- The head stays, and the arguments are rewritten one by one.
      rw [recolumned_app, mapColumnsM, mapLeavesM_app, Result.bind_eq_ok, ← mapColumnsM]
      refine exists_congr fun args' => and_congr ?_ (Result.pure_eq_ok.trans eq_comm)
      rw [Result.mapM_eq_ok]
      exact forall₂_congr_of_mem fun e he _ => ih e he

theorem eq_mapColumns_iff {f : ColumnRef → ColumnRef} :
    e' = e.mapColumns f ↔ e.Recolumned (fun c d => d = f c) e' := by
  -- A function is a visitor that refuses nothing.
  let visit : ColumnRef → Result ColumnRef := fun c => .ok (f c)
  have hok : e.mapColumnsM visit = .ok (e.mapColumns f) := mapColumnsM_ok fun _ _ => rfl
  have hiff : e.mapColumnsM visit = .ok e' ↔ e.Recolumned (fun c d => visit c = .ok d) e' :=
    mapColumnsM_eq_ok_iff
  simpa [hok, visit, eq_comm] using hiff

/-- The expression with other subqueries. -/
def mapSubqueries (g : Subquery → Subquery) : Expr → Expr :=
  mapLeaves fun
    | .subquery query type => .leaf (.subquery (g query) type)
    | l => .leaf l

/-- No subquery has a column of the expression. -/
theorem columns_mapSubqueries (g : Subquery → Subquery) (e : Expr) :
    (e.mapSubqueries g).columns = e.columns := by
  induction e using ind with
  | leaf l => cases l <;> rfl
  | app head args ih =>
      rw [mapSubqueries, mapLeaves_app, columns_app, columns_app, flatMap_map]
      exact flatMap_congr ih

theorem mapColumns_mapSubqueries (f : ColumnRef → ColumnRef) (g : Subquery → Subquery) (e : Expr) :
    (e.mapSubqueries g).mapColumns f = (e.mapColumns f).mapSubqueries g := by
  induction e using ind with
  | leaf l => cases l <;> rfl
  | app head args ih =>
      simp only [mapSubqueries, mapLeaves_app, mapColumns_app, map_map, app.injEq, true_and]
      exact map_congr_left ih

end Expr

/-! ### Window functions -/

/-- The number of arguments of a call. -/
def WindowCall.argCount (w : WindowCall) : Nat :=
  w.operandCount + (w.partitionCount + (w.collation.length +
    (w.lower.hasOffset.toNat + w.upper.hasOffset.toNat)))

namespace WindowArgs

variable {α β : Type}

/-- The arguments in order: operands, keys, then the offsets of the bounds. -/
def toList (a : WindowArgs α) : List α :=
  a.operands ++ (a.partition ++ (a.order ++ (a.lower.toList ++ a.upper.toList)))

/-- Other arguments in the same roles. -/
def map (f : α → β) (a : WindowArgs α) : WindowArgs β :=
  ⟨a.operands.map f, a.partition.map f, a.order.map f, a.lower.map f, a.upper.map f⟩

end WindowArgs

namespace WindowCall

variable {α β : Type}

/-- Arguments that are changed keep their roles. -/
theorem split_map (w : WindowCall) (f : α → β) (args : List α) :
    w.split (args.map f) = (w.split args).map f := by
  cases hlower : w.lower.hasOffset <;> cases hupper : w.upper.hasOffset <;>
    simp [split, WindowArgs.map, hlower, hupper, map_take, map_drop]

/-- Every argument has a role. -/
theorem toList_split (w : WindowCall) {args : List α} (h : args.length = w.argCount) :
    (w.split args).toList = args := by
  -- Behind the keys stand the offsets that the bounds have, the lower one first.
  have hoffsets : ∀ offsets : List α,
      offsets.length = w.lower.hasOffset.toNat + w.upper.hasOffset.toNat →
      (if w.lower.hasOffset then offsets.head? else none).toList ++
        (if w.upper.hasOffset then
          (if w.lower.hasOffset then offsets.drop 1 else offsets).head?
        else none).toList = offsets := by
    intro offsets hlength
    match offsets with
    | [] => simp
    | [a] => cases hlower : w.lower.hasOffset <;> cases hupper : w.upper.hasOffset <;> simp_all
    | [a, b] => cases hlower : w.lower.hasOffset <;> cases hupper : w.upper.hasOffset <;> simp_all
    | _ :: _ :: _ :: _ =>
        have hlower := w.lower.hasOffset.toNat_le
        have hupper := w.upper.hasOffset.toNat_le
        simp only [length_cons] at hlength
        omega
  unfold WindowArgs.toList split
  dsimp only
  rw [hoffsets, take_append_drop, take_append_drop, take_append_drop]
  simp only [length_drop, h, argCount]
  omega

end WindowCall

/-- **Reading and rewriting see the same references.** The columns of a rewritten expression are
those of the expression, each changed, in the same order, and nothing else of it is changed. A
visitor that writes down what it meets while it rewrites meets what is read, in an expression and in
an operator. So does any other visitor, whatever else it does, refuses or remembers. The arguments
of a window function, with the offsets of its bounds, are read in their roles and stay in them. And
subqueries are carried along: nothing is read in them or changed, whichever they are.

The order in which a head of each kind holds its arguments is no result here. Expressions are read
with their arguments in the order in which the program visits them: operands as they are written,
the conditions and results of a `CASE` in turn, and for window functions that of `WindowArgs`. -/
theorem traversals_agree :
    (∀ (e : Expr) (f : ColumnRef → ColumnRef),
      (e.mapColumns f).columns = e.columns.map f ∧
      (∀ e', e' = e.mapColumns f ↔ e.Recolumned (fun c d => d = f c) e') ∧
      (e.mapColumnsM (recording f)).run [] = (e.mapColumns f, e.columns)) ∧
    (∀ (op : Operator) (g : Expr → Expr),
      (op.mapExprs g).exprs = op.exprs.map g ∧
      (op.mapExprsM (recording g)).run [] = (op.mapExprs g, op.exprs)) ∧
    (∀ (m : Type → Type) [Monad m] [LawfulMonad m],
      (∀ (e : Expr) (f : ColumnRef → m ColumnRef),
        Expr.columns <$> e.mapColumnsM f = e.columns.mapM f) ∧
      ∀ (op : Operator) (g : Expr → m Expr),
        Operator.exprs <$> op.mapExprsM g = op.exprs.mapM g) ∧
    (∀ (e e' : Expr) (f : ColumnRef → Result ColumnRef),
      e.mapColumnsM f = .ok e' ↔ e.Recolumned (fun c d => f c = .ok d) e') ∧
    (∀ (w : WindowCall) (args : List Expr),
      (args.length = w.argCount →
        (Expr.app (.window w) args).columns = (w.split args).toList.flatMap Expr.columns) ∧
      ∀ f : ColumnRef → ColumnRef,
        w.split (args.map (Expr.mapColumns f)) = (w.split args).map (Expr.mapColumns f)) ∧
    ∀ (e : Expr) (f : ColumnRef → ColumnRef) (g : Subquery → Subquery),
      (e.mapColumns f).subqueries = e.subqueries ∧
      (e.mapSubqueries g).columns = e.columns ∧
      (e.mapSubqueries g).mapColumns f = (e.mapColumns f).mapSubqueries g := by
  refine ⟨fun e f => ?_, fun op g => ?_, fun m _ _ => ?_, fun e e' f => ?_, fun w args => ?_,
    fun e f g => ?_⟩
  · exact ⟨Expr.columns_mapColumns f e, fun _ => Expr.eq_mapColumns_iff,
      Expr.mapColumnsM_recording f e []⟩
  · exact ⟨Operator.exprs_mapExprs g op, Operator.mapExprsM_recording g op []⟩
  · exact ⟨fun e f => Expr.columns_mapColumnsM f e, fun op g => Operator.exprs_mapExprsM g op⟩
  · exact Expr.mapColumnsM_eq_ok_iff
  · refine ⟨fun hcount => ?_, fun f => w.split_map _ args⟩
    rw [w.toList_split hcount, Expr.columns_app]
  · exact ⟨Expr.subqueries_mapColumns f e, Expr.columns_mapSubqueries g e,
      Expr.mapColumns_mapSubqueries f g e⟩

end QueryPlan
