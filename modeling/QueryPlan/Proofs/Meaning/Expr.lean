import QueryPlan.Operator
import QueryPlan.Proofs.Expr.Conjuncts
/-!
# QueryPlan.Proofs.Meaning.Expr

**What an expression means.** Tables, operators and functions may mean anything (`Meaning`). An
expression is evaluated at one row of several (`Meaning.eval`), because the value of a window
function comes from all of them. A condition is about one row: it is evaluated with no other rows
around (`Meaning.holds`).

Two facts about conditions are all that passes rely on (`Meaning.Logical`): `AND` is the
conjunction of three-valued logic, and the constant `true` is true. From the first one alone
(`Meaning.Conjoins`) a condition has the truth value of the conjunction of its conjuncts
(`Meaning.Conjoins.truthAt_eq_conjunction`).
-/

namespace QueryPlan

open List

/-- The rows of a table or of a node, each a list of values. -/
abbrev Rows (V : Type) : Type := List (List V)

/-- What tables, constants, operators and functions mean, over some values. -/
structure Meaning (V : Type) where
  null : V
  literal : Literal → V
  subquery : Subquery → Option SqlType → V
  /-- An operator, a function or `CASE`, applied to its arguments. -/
  apply : Head → List V → V
  /-- A window function at one of several rows, from its arguments at all of them. -/
  window : WindowCall → Rows V → Nat → V
  /-- Whether a value counts as true or as false, or as neither. -/
  truth : V → Option Bool
  scan : Scan → Rows V
  materializedScan : MaterializedScan → Rows V
  /-- An aggregate function, from its operands at the rows of a group. -/
  aggregate : AggregateKind → Bool → SqlType → Rows V → V
  compare : SortDirection → NullOrder → V → V → Ordering
  /-- A table function. It is given the cursor columns and the arguments at each row, and gives
  rows of supplied values, each for one of the rows. -/
  tableFunction : String → List (List V × List V) → List (Nat × (Nat → V))
  union : Bool → List (Rows V) → Rows V
  modify : Modify → Rows V → Rows V

/-- The values of the columns of a row and those that the owner of an expression supplies. -/
structure Env (V : Type) where
  column : ColumnRef → V
  supplied : Nat → V

/-- The row with other columns in place of its own. -/
def Env.moved {V : Type} (env : Env V) (φ : ColumnRef → ColumnRef) : Env V where
  column c := env.column (φ c)
  supplied := env.supplied

/-! ### Three-valued logic -/

/-- The conjunction of two truth values, one of which may be unknown. -/
def Truth.both : Option Bool → Option Bool → Option Bool
  | some true, t => t
  | some false, _ => some false
  | none, some false => some false
  | none, _ => none

/-- The conjunction of truth values; without any it is true. -/
def Truth.conjunction (ts : List (Option Bool)) : Option Bool := ts.foldr Truth.both (some true)

namespace Truth

theorem both_assoc (a b c : Option Bool) : both (both a b) c = both a (both b c) := by
  rcases a with _ | (_ | _) <;> rcases b with _ | (_ | _) <;> rcases c with _ | (_ | _) <;> rfl

theorem both_true (a : Option Bool) : both a (some true) = a := by
  rcases a with _ | (_ | _) <;> rfl

theorem both_eq_true {a b : Option Bool} :
    both a b = some true ↔ a = some true ∧ b = some true := by
  rcases a with _ | (_ | _) <;> rcases b with _ | (_ | _) <;> decide

theorem conjunction_append (as bs : List (Option Bool)) :
    conjunction (as ++ bs) = both (conjunction as) (conjunction bs) := by
  induction as with
  | nil => rfl
  | cons a as ih =>
      change both a (conjunction (as ++ bs)) = both (both a (conjunction as)) (conjunction bs)
      rw [ih, both_assoc]

/-- A conjunction of conjunctions is one conjunction. -/
theorem conjunction_flatMap {α : Type} (f : α → List (Option Bool)) (as : List α) :
    conjunction (as.map fun a => conjunction (f a)) = conjunction (as.flatMap f) := by
  induction as with
  | nil => rfl
  | cons a as ih =>
      rw [flatMap_cons, conjunction_append, ← ih]
      rfl

theorem conjunction_eq_true {ts : List (Option Bool)} :
    conjunction ts = some true ↔ ∀ t ∈ ts, t = some true := by
  induction ts with
  | nil => simp [conjunction]
  | cons t ts ih =>
      change both t (conjunction ts) = some true ↔ _
      rw [both_eq_true, ih, forall_mem_cons]

end Truth

namespace Meaning

variable {V : Type} (M : Meaning V)

/-! ### Evaluation -/

/-- The value of a leaf. A positional reference is not bound to a column and has no value. -/
def leafValue (env : Env V) : Leaf → V
  | .positional _ => M.null
  | .column c => env.column c
  | .literal l => M.literal l
  | .supplied i => env.supplied i
  | .subquery q type => M.subquery q type

/-- The value of an application at one of several rows, from the arguments at every row. -/
def applied (head : Head) (count : Nat) (args : Nat → List V) (i : Nat) : V :=
  match head with
  | .window w => M.window w ((range count).map args) i
  | head => M.apply head (args i)

mutual

/-- The value of an expression at one of several rows. -/
def eval (envs : List (Env V)) : Expr → Nat → V
  | .leaf l, i => (envs[i]?).elim M.null fun env => M.leafValue env l
  | .app head args, i => M.applied head envs.length (evalAll envs args) i

/-- The values of several expressions at one of several rows. -/
def evalAll (envs : List (Env V)) : List Expr → Nat → List V
  | [], _ => []
  | e :: es, i => eval envs e i :: evalAll envs es i

end

/-- The truth value of a condition at a row. The row stands alone, so a window function within the
condition ranges over this row only. -/
def truthAt (env : Env V) (e : Expr) : Option Bool := M.truth (M.eval [env] e 0)

/-- Whether a condition is true. -/
def holds (env : Env V) (e : Expr) : Bool := M.truthAt env e == some true

/-- `AND` is the conjunction of three-valued logic. -/
def Conjoins : Prop := ∀ type args,
  M.truth (M.apply (.operator .and type) args) = Truth.conjunction (args.map M.truth)

/-- `AND` is the conjunction of three-valued logic, and the constant `true` is true. -/
structure Logical : Prop where
  truth_and : ∀ type args,
    M.truth (M.apply (.operator .and type) args) = Truth.conjunction (args.map M.truth)
  truth_true : ∀ l : Literal, l.isTrue → M.truth (M.literal l) = some true

variable {M}

theorem evalAll_eq (envs : List (Env V)) (es : List Expr) (i : Nat) :
    M.evalAll envs es i = es.map fun e => M.eval envs e i := by
  induction es with
  | nil => rfl
  | cons e es ih => rw [evalAll, ih, map_cons]

theorem eval_app (envs : List (Env V)) (head : Head) (args : List Expr) (i : Nat) :
    M.eval envs (.app head args) i =
      M.applied head envs.length (fun i => args.map fun e => M.eval envs e i) i := by
  rw [eval, funext (evalAll_eq envs args)]

/-- Moving the columns of an expression is no change if the rows move along. -/
theorem eval_mapColumns {α : Type} {xs : List α} {f g : α → Env V} {φ : ColumnRef → ColumnRef}
    {e : Expr} (hsupplied : ∀ x ∈ xs, (g x).supplied = (f x).supplied)
    (hcolumns : ∀ x ∈ xs, ∀ c ∈ e.columns, (g x).column (φ c) = (f x).column c) (i : Nat) :
    M.eval (xs.map g) (e.mapColumns φ) i = M.eval (xs.map f) e i := by
  induction e using Expr.ind generalizing i with
  | leaf l =>
      cases hx : xs[i]? with
      | none => cases l <;> simp [eval, hx]
      | some x =>
          have hmem : x ∈ xs := mem_of_getElem? hx
          cases l with
          | column c =>
              have hcolumn := hcolumns x hmem c (by simp [Expr.columns, Expr.leaves, Leaf.column?])
              simpa [eval, hx, leafValue] using hcolumn
          | supplied k => simpa [eval, hx, leafValue] using congrFun (hsupplied x hmem) k
          | _ => simp [eval, hx, leafValue]
  | app head args ih =>
      have hargs : ∀ i, (args.map (Expr.mapColumns φ)).map (fun e => M.eval (xs.map g) e i) =
          args.map fun e => M.eval (xs.map f) e i := by
        intro i
        rw [map_map]
        refine map_congr_left fun e he => ih e he (fun x hx c hc => ?_) i
        exact hcolumns x hx c (Expr.mem_columns_app.mpr ⟨e, he, hc⟩)
      rw [Expr.mapColumns_app, eval_app, eval_app, funext hargs, length_map, length_map]

theorem truthAt_mapColumns {env env' : Env V} {φ : ColumnRef → ColumnRef} {e : Expr}
    (hsupplied : env'.supplied = env.supplied)
    (hcolumns : ∀ c ∈ e.columns, env'.column (φ c) = env.column c) :
    M.truthAt env' (e.mapColumns φ) = M.truthAt env e := by
  have heval : M.eval ([()].map fun _ => env') (e.mapColumns φ) 0 =
      M.eval ([()].map fun _ => env) e 0 :=
    eval_mapColumns (fun _ _ => hsupplied) (fun _ _ => hcolumns) 0
  exact congrArg M.truth heval

theorem holds_mapColumns {env env' : Env V} {φ : ColumnRef → ColumnRef} {e : Expr}
    (hsupplied : env'.supplied = env.supplied)
    (hcolumns : ∀ c ∈ e.columns, env'.column (φ c) = env.column c) :
    M.holds env' (e.mapColumns φ) = M.holds env e := by
  rw [holds, holds, truthAt_mapColumns hsupplied hcolumns]

/-- Moving the columns of a condition is reading moved columns. -/
theorem holds_moved (env : Env V) (φ : ColumnRef → ColumnRef) (e : Expr) :
    M.holds env (e.mapColumns φ) = M.holds (env.moved φ) e :=
  holds_mapColumns rfl fun _ _ => rfl

theorem holds_congr {env env' : Env V} {e : Expr} (hsupplied : env'.supplied = env.supplied)
    (hcolumns : ∀ c ∈ e.columns, env'.column c = env.column c) :
    M.holds env' e = M.holds env e := by
  have h := holds_mapColumns (M := M) (φ := fun c => c) hsupplied hcolumns
  rwa [Expr.mapColumns_id] at h

/-! ### Conditions and their conjuncts -/

namespace Conjoins

variable (hM : M.Conjoins) (envs : List (Env V)) (i : Nat) (env : Env V)
include hM

theorem truth_eval_and (type : SqlType) (args : List Expr) :
    M.truth (M.eval envs (.app (.operator .and type) args) i) =
      Truth.conjunction (args.map fun e => M.truth (M.eval envs e i)) := by
  rw [eval_app]
  refine (hM type _).trans ?_
  rw [map_map]
  rfl

/-- At every row a condition has the truth value of the conjunction of its conjuncts. -/
theorem truth_eval_eq_conjunction (e : Expr) :
    M.truth (M.eval envs e i) =
      Truth.conjunction (e.conjuncts.map fun d => M.truth (M.eval envs d i)) := by
  induction e using Expr.ind with
  | leaf l => exact (Truth.both_true _).symm
  | app head args ih =>
      rcases Expr.and_or_conjuncts_eq (.app head args) with ⟨type, args', h⟩ | h
      · cases h
        rw [hM.truth_eval_and, Expr.conjuncts_and, map_flatMap, ← Truth.conjunction_flatMap]
        exact congrArg Truth.conjunction (map_congr_left ih)
      · rw [h]
        exact (Truth.both_true _).symm

/-- Conditions that are put together are as true as they are one by one. -/
theorem truth_eval_all? {es : List Expr} {e : Expr} (h : Expr.all? es = some e) :
    M.truth (M.eval envs e i) = Truth.conjunction (es.map fun d => M.truth (M.eval envs d i)) := by
  match es, h with
  | [_], h =>
      cases h
      exact (Truth.both_true _).symm
  | _ :: _ :: _, h =>
      cases h
      exact hM.truth_eval_and envs i _ _

theorem truthAt_eq_conjunction (e : Expr) :
    M.truthAt env e = Truth.conjunction (e.conjuncts.map (M.truthAt env)) :=
  hM.truth_eval_eq_conjunction [env] 0 e

/-- A condition is true if all of its conjuncts are. -/
theorem holds_eq_all (e : Expr) : M.holds env e = e.conjuncts.all (M.holds env) := by
  rw [Bool.eq_iff_iff, holds, beq_iff_eq, hM.truthAt_eq_conjunction, Truth.conjunction_eq_true]
  simp [holds]

/-- The conjunction of conditions is true if they all are. -/
theorem holds_all? {es : List Expr} {e : Expr} (h : Expr.all? es = some e) :
    M.holds env e = es.all (M.holds env) := by
  rw [Bool.eq_iff_iff, holds, beq_iff_eq, truthAt, hM.truth_eval_all? [env] 0 h,
    Truth.conjunction_eq_true]
  simp [holds, truthAt]

end Conjoins

namespace Logical

theorem conjoins (hM : M.Logical) : M.Conjoins := hM.truth_and

variable (hM : M.Logical) (env : Env V)
include hM

theorem truthAt_true {e : Expr} (he : e.isTrue = true) : M.truthAt env e = some true := by
  cases e with
  | leaf l =>
      cases l with
      | literal l => exact hM.truth_true l he
      | _ => cases he
  | app head args => cases he

/-- Conditions that are the constant `true` may be left out of a conjunction. -/
theorem holds_all?_filter (es : List Expr) :
    M.holds env ((Expr.all? (es.filter fun e => !e.isTrue)).getD (.bool true)) =
      es.all (M.holds env) := by
  have hfilter : (es.filter fun e => !e.isTrue).all (M.holds env) = es.all (M.holds env) := by
    rw [Bool.eq_iff_iff]
    simp only [all_filter, all_eq_true, Bool.or_eq_true, Bool.not_not]
    refine forall₂_congr fun e _ => or_iff_right_of_imp fun htrue => ?_
    rw [holds, hM.truthAt_true env htrue, beq_self_eq_true]
  rw [← hfilter]
  cases hall : Expr.all? (es.filter fun e => !e.isTrue) with
  | none =>
      have htrue : M.holds env (.bool true) = true := by
        rw [holds, hM.truthAt_true env (e := .bool true) rfl, beq_self_eq_true]
      rw [Expr.all?_eq_none_iff.mp hall, Option.getD_none, htrue, all_nil]
  | some e => exact hM.conjoins.holds_all? env hall

end Logical

/-- Values that are truth values, where nothing but `AND` and boolean constants means something. -/
def ofTruthValues : Meaning (Option Bool) where
  null := none
  literal l := match l.value with
    | .bool b => some b
    | _ => none
  subquery _ _ := none
  apply head args := match head with
    | .operator .and _ => Truth.conjunction args
    | _ => none
  window _ _ _ := none
  truth v := v
  scan _ := []
  materializedScan _ := []
  aggregate _ _ _ _ := none
  compare _ _ _ _ := .eq
  tableFunction _ _ := []
  union _ _ := []
  modify _ _ := []

theorem ofTruthValues_logical : ofTruthValues.Logical where
  truth_and _ args := congrArg Truth.conjunction (map_id args).symm
  truth_true l hl := by
    have hvalue : l.value = .bool true := eq_of_beq hl
    simp [ofTruthValues, hvalue]

/-- Truth values, where `=` compares them. -/
def ofEqualities : Meaning (Option Bool) :=
  { ofTruthValues with
    apply := fun head args => match head, args with
      | .operator .eq _, [some a, some b] => some (a == b)
      | head, args => ofTruthValues.apply head args }

theorem ofEqualities_logical : ofEqualities.Logical where
  truth_and type args := ofTruthValues_logical.truth_and type args
  truth_true l hl := ofTruthValues_logical.truth_true l hl

end Meaning

end QueryPlan
