import QueryPlan.Proofs.Separation.Halves
import QueryPlan.Proofs.Separation.Inlining
/-!
# QueryPlan.Proofs.Separation.Remaining

**What the separation of window functions leaves behind.** It takes one window function out of an
expression. The expression that stays above is no window function then, whatever it was before
(`Expr.isWindow_of_takeWindow?`), and has one window function less inside
(`Expr.innerWindows_of_takeWindow?`). The new projection does not get a turn of its own, so a
projection with up to `m` window functions inside of an expression becomes one with none and one
with up to `m - 1` (`embeddedWindows_separateWindows`).
-/

namespace QueryPlan

open List

namespace Expr

/-! ### Window functions inside of expressions -/

mutual

/-- Whether a window function is called anywhere in an expression. -/
def hasWindow : Expr → Bool
  | .leaf _ => false
  | .app (.window _) _ => true
  | .app _ args => hasWindowAny args

/-- Whether a window function is called anywhere in a list of expressions. -/
def hasWindowAny : List Expr → Bool
  | [] => false
  | e :: es => hasWindow e || hasWindowAny es

end

mutual

/-- How many window functions lie inside of an expression. Of two that lie in one another the outer
one counts. -/
def innerWindows : Expr → Nat
  | .leaf _ => 0
  | .app _ args => outerWindowsAll args

/-- How many window functions a list of expressions has. Of two that lie in one another the outer
one counts. -/
def outerWindowsAll : List Expr → Nat
  | [] => 0
  | e :: es => (if e.isWindow then 1 else innerWindows e) + outerWindowsAll es

end

/-- How many window functions an expression has. Of two that lie in one another the outer one
counts. -/
def outerWindows (e : Expr) : Nat := if e.isWindow then 1 else e.innerWindows

/-- How many window functions lie inside of an expression that is none itself. -/
def embeddedWindows (e : Expr) : Nat := if e.isWindow then 0 else e.innerWindows

variable {e hole window rest : Expr} {c : ColumnRef}

theorem hasWindowAny_eq (es : List Expr) : hasWindowAny es = es.any hasWindow := by
  induction es with
  | nil => rfl
  | cons e es ih => rw [hasWindowAny, ih, any_cons]

theorem outerWindowsAll_eq (es : List Expr) :
    outerWindowsAll es = (es.map outerWindows).sum := by
  induction es with
  | nil => rfl
  | cons e es ih => rw [outerWindowsAll, ih, map_cons, sum_cons, outerWindows]

theorem innerWindows_app (head : Head) (args : List Expr) :
    (app head args).innerWindows = (args.map outerWindows).sum := by
  rw [innerWindows, outerWindowsAll_eq]

theorem outerWindows_of_isWindow (h : e.isWindow = true) : e.outerWindows = 1 := if_pos h

theorem outerWindows_of_not_isWindow (h : e.isWindow = false) :
    e.outerWindows = e.innerWindows := if_neg (by simp [h])

theorem embeddedWindows_of_isWindow (h : e.isWindow = true) : e.embeddedWindows = 0 := if_pos h

theorem embeddedWindows_of_not_isWindow (h : e.isWindow = false) :
    e.embeddedWindows = e.innerWindows := if_neg (by simp [h])

theorem hasWindow_of_mem {head : Head} {args : List Expr} (he : e ∈ args)
    (h : e.hasWindow = true) : (app head args).hasWindow = true := by
  have hany : hasWindowAny args = true := by
    rw [hasWindowAny_eq]
    exact any_eq_true.mpr ⟨e, he, h⟩
  cases head with
  | window w => rfl
  | _ => exact hany

theorem hasWindow_of_isWindowCall {kind : WindowKind} (h : e.isWindowCall kind = true) :
    e.isWindow = true ∧ e.hasWindow = true := by
  unfold isWindowCall at h
  split at h
  · exact ⟨by rw [isWindow], rfl⟩
  · cases h

/-- The shapes of a windowed sum. -/
theorem isWindowSum_eq_true (h : e.isWindowSum = true) :
    ∃ test result default, e = .app .case (test :: result :: default) ∧ default.length ≤ 1 ∧
      result.isWindowCall .sumOrZero = true := by
  unfold isWindowSum at h
  split at h
  · exact ⟨_, _, [], rfl, by simp, h⟩
  · exact ⟨_, _, [_], rfl, by simp, h⟩
  · cases h

theorem isWindow_of_isWindowSum (h : e.isWindowSum = true) : e.isWindow = true := by
  obtain ⟨test, result, default, rfl, -, -⟩ := isWindowSum_eq_true h
  refine (isWindow.eq_4 _ ?_ ?_ ?_).trans h
  · rintro w args ⟨⟩
  · rintro type e ⟨⟩
  · rintro type sum count ⟨⟩

/-- A window function calls one. -/
theorem hasWindow_of_isWindow (h : e.isWindow = true) : e.hasWindow = true := by
  fun_induction isWindow e with
  | case1 w args => rfl
  | case2 type e ih => exact hasWindow_of_mem (mem_singleton_self e) (ih h)
  | case3 type sum count =>
      rw [Bool.and_eq_true] at h
      exact hasWindow_of_mem (by simp) (hasWindow_of_isWindowCall h.1).2
  | case4 e =>
      obtain ⟨test, result, default, rfl, -, hcall⟩ := isWindowSum_eq_true h
      exact hasWindow_of_mem (by simp) (hasWindow_of_isWindowCall hcall).2

/-- A window function is called in an expression if and only if there is one to count. -/
theorem hasWindow_eq_true_iff : e.hasWindow = true ↔ e.outerWindows ≠ 0 := by
  induction e using ind with
  | leaf l => exact ⟨nofun, fun h => absurd rfl h⟩
  | app head args ih =>
      cases hwindow : (app head args).isWindow with
      | true =>
          rw [outerWindows_of_isWindow hwindow]
          exact ⟨fun _ => Nat.one_ne_zero, fun _ => hasWindow_of_isWindow hwindow⟩
      | false =>
          have hany : (app head args).hasWindow = args.any hasWindow := by
            cases head with
            | window w => rw [isWindow] at hwindow; cases hwindow
            | _ => exact hasWindowAny_eq args
          rw [outerWindows_of_not_isWindow hwindow, innerWindows_app, hany, any_eq_true, ne_eq,
            sum_eq_zero_iff]
          simp only [mem_map, forall_exists_index, and_imp, forall_apply_eq_imp_iff₂, not_forall,
            exists_prop]
          exact exists_congr fun a => and_congr_right (ih a)

theorem hasWindow_eq_false_iff (h : e.isWindow = false) :
    e.hasWindow = false ↔ e.innerWindows = 0 := by
  rw [← outerWindows_of_not_isWindow h, ← Bool.not_eq_true, hasWindow_eq_true_iff, not_not]

/-- No window function lies inside of an expression that is none itself. -/
theorem embeddedWindows_eq_zero_iff :
    e.embeddedWindows = 0 ↔ e.isWindow = true ∨ e.hasWindow = false := by
  cases hwindow : e.isWindow with
  | true => simp [embeddedWindows_of_isWindow hwindow]
  | false => simp [embeddedWindows_of_not_isWindow hwindow, hasWindow_eq_false_iff hwindow]

/-! ### Other columns -/

theorem innerWindows_mapColumns (f : ColumnRef → ColumnRef) (e : Expr) :
    (e.mapColumns f).innerWindows = e.innerWindows := by
  induction e using ind with
  | leaf l => cases l <;> rfl
  | app head args ih =>
      rw [mapColumns_app, innerWindows_app, innerWindows_app, map_map]
      refine congrArg sum (map_congr_left fun a ha => ?_)
      rw [Function.comp_apply, outerWindows, isWindow_mapColumns, ih a ha, outerWindows]

theorem embeddedWindows_mapColumns (f : ColumnRef → ColumnRef) (e : Expr) :
    (e.mapColumns f).embeddedWindows = e.embeddedWindows := by
  rw [embeddedWindows, isWindow_mapColumns, innerWindows_mapColumns, embeddedWindows]

theorem hasWindow_mapColumns (f : ColumnRef → ColumnRef) (e : Expr) :
    (e.mapColumns f).hasWindow = e.hasWindow := by
  rw [Bool.eq_iff_iff, hasWindow_eq_true_iff, hasWindow_eq_true_iff, outerWindows,
    isWindow_mapColumns, innerWindows_mapColumns, outerWindows]

/-! ### Cutting a window function out -/

/-- An expression does not become a window function by what stands in place of an argument that is
none. -/
theorem isWindow_of_exchange {head : Head} {front back : List Expr} {a b : Expr}
    (hfront : ∀ x ∈ front, x.isWindow = false) (hb : b.isWindow = false)
    (h : (app head (front ++ b :: back)).isWindow = true) :
    (app head (front ++ a :: back)).isWindow = true := by
  generalize he : app head (front ++ b :: back) = e at h
  fun_induction isWindow e with
  | case1 w args =>
      obtain ⟨rfl, -⟩ := app.inj he
      rw [isWindow]
  | case2 type e =>
      obtain ⟨-, hargs⟩ := app.inj he
      rcases front with _ | ⟨x, front⟩
      · obtain ⟨rfl, -⟩ := cons.inj hargs
        rw [hb] at h
        cases h
      · simp at hargs
  | case3 type sum count =>
      rw [Bool.and_eq_true] at h
      obtain ⟨-, hargs⟩ := app.inj he
      rcases front with _ | ⟨x, _ | ⟨y, front⟩⟩
      · obtain ⟨rfl, -⟩ := cons.inj hargs
        rw [isWindow_of_isWindowSum h.2] at hb
        cases hb
      · simp only [cons_append, nil_append, cons.injEq] at hargs
        obtain ⟨-, rfl, -⟩ := hargs
        rw [(hasWindow_of_isWindowCall h.1).1] at hb
        cases hb
      · simp at hargs
  | case4 e =>
      obtain ⟨test, result, default, rfl, hdefault, hcall⟩ := isWindowSum_eq_true h
      obtain ⟨rfl, hargs⟩ := app.inj he
      have hresult := (hasWindow_of_isWindowCall hcall).1
      rcases front with _ | ⟨x, _ | ⟨y, front⟩⟩
      · -- The argument is the test, and the result decides.
        obtain ⟨rfl, rfl⟩ := cons.inj hargs
        refine isWindow_of_isWindowSum ?_
        rcases default with _ | ⟨d, _ | ⟨d', default⟩⟩
        · exact hcall
        · exact hcall
        · simp at hdefault
      · simp only [cons_append, nil_append, cons.injEq] at hargs
        obtain ⟨-, rfl, -⟩ := hargs
        rw [hresult] at hb
        cases hb
      · simp only [cons_append, cons.injEq] at hargs
        obtain ⟨-, rfl, -⟩ := hargs
        rw [hfront y (by simp)] at hresult
        cases hresult

/-- What is cut out is a window function, and what stays is none. -/
theorem isWindow_of_takeWindow? (h : e.takeWindow? (.column c) = some (window, rest))
    (he : e.isWindow = false) : window.isWindow = true ∧ rest.isWindow = false := by
  induction e using ind generalizing rest with
  | leaf l => rw [takeWindow?] at h; cases h
  | app head args ih =>
      obtain ⟨_, front, a, b, back, ⟨rfl, rfl⟩, rfl, hfront, hcut⟩ := takeWindow?_eq_some h
      obtain ⟨hwindow, hb⟩ : window.isWindow = true ∧ b.isWindow = false := by
        rcases hcut with ⟨ha, rfl, rfl⟩ | ⟨ha, htake⟩
        · exact ⟨ha, rfl⟩
        · exact ih a (by simp) htake ha
      refine ⟨hwindow, Bool.eq_false_iff.mpr fun hrest => ?_⟩
      rw [isWindow_of_exchange (fun x hx => (hfront x hx).1) hb hrest] at he
      cases he

/-- There is one window function less inside. -/
theorem innerWindows_of_takeWindow? (h : e.takeWindow? (.column c) = some (window, rest)) :
    e.innerWindows = rest.innerWindows + 1 := by
  induction e using ind generalizing rest with
  | leaf l => rw [takeWindow?] at h; cases h
  | app head args ih =>
      obtain ⟨_, front, a, b, back, ⟨rfl, rfl⟩, rfl, -, hcut⟩ := takeWindow?_eq_some h
      have ha : a.outerWindows = b.outerWindows + 1 := by
        rcases hcut with ⟨ha, rfl, rfl⟩ | ⟨ha, htake⟩
        · exact outerWindows_of_isWindow ha
        · rw [outerWindows_of_not_isWindow ha,
            outerWindows_of_not_isWindow (isWindow_of_takeWindow? htake ha).2]
          exact ih a (by simp) htake
      simp only [innerWindows_app, map_append, map_cons, sum_append, sum_cons, ha]
      omega

/-- There is a window function to cut out if and only if there is one to count. -/
theorem takeWindow?_eq_none_iff : e.takeWindow? hole = none ↔ e.innerWindows = 0 := by
  induction e using ind with
  | leaf l => rw [takeWindow?]; exact ⟨fun _ => rfl, fun _ => rfl⟩
  | app head args ih =>
      rw [← Option.not_isSome_iff_eq_none, isSome_takeWindow?_app, innerWindows_app,
        sum_eq_zero_iff, any_eq_true, not_exists]
      simp only [mem_map, forall_exists_index, and_imp, forall_apply_eq_imp_iff₂, not_and]
      refine forall₂_congr fun a ha => ?_
      cases hwindow : a.isWindow with
      | true => simp [outerWindows_of_isWindow hwindow]
      | false =>
          rw [outerWindows_of_not_isWindow hwindow, ← ih a ha]
          simp

theorem embedsWindow_eq_false_iff : e.embedsWindow = false ↔ e.embeddedWindows = 0 := by
  rw [embedsWindow]
  cases hwindow : e.isWindow with
  | true => exact ⟨fun _ => embeddedWindows_of_isWindow hwindow, fun _ => rfl⟩
  | false =>
      rw [embeddedWindows_of_not_isWindow hwindow, ← takeWindow?_eq_none_iff, Bool.not_false,
        Bool.true_and, Option.isSome_eq_false_iff, Option.isNone_iff_eq_none]

end Expr

/-! ### Projections taken apart -/

/-- The lower part of an expression has no window function inside, the upper part one less. -/
theorem embeddedWindows_splitExpr (id : NodeId) (place : Nat) (e : Expr) :
    (splitExpr id place e).1.embeddedWindows = 0 ∧
      (splitExpr id place e).2.embeddedWindows = e.embeddedWindows - 1 := by
  unfold splitExpr
  cases hwindow : e.isWindow with
  | true =>
      rw [if_pos rfl, Expr.embeddedWindows_of_isWindow hwindow]
      exact ⟨rfl, rfl⟩
  | false =>
      rw [if_neg (by simp), Expr.embeddedWindows_of_not_isWindow hwindow]
      cases htake : e.takeWindow? (.column ⟨id, place⟩) with
      | none =>
          have hzero := Expr.takeWindow?_eq_none_iff.mp htake
          rw [Option.getD_none, Expr.embeddedWindows_of_not_isWindow hwindow, hzero]
          exact ⟨rfl, rfl⟩
      | some parts =>
          obtain ⟨hpart, hrest⟩ := Expr.isWindow_of_takeWindow? htake hwindow
          rw [Option.getD_some, Expr.embeddedWindows_of_isWindow hpart,
            Expr.embeddedWindows_of_not_isWindow hrest, Expr.innerWindows_of_takeWindow? htake]
          exact ⟨rfl, rfl⟩

/-- The expressions of the upper half have one window function less inside, those of the lower half
none. -/
theorem embeddedWindows_halves (p : Plan) (id : NodeId) (j : Project) :
    (∀ e ∈ (p.lowerHalf id j).exprs, e.embeddedWindows = 0) ∧
      (splitUpper id j.exprs).1.map Expr.embeddedWindows =
        j.exprs.map fun e => e.embeddedWindows - 1 := by
  obtain ⟨hlower, hupper⟩ := splitWindows_eq id j.exprs 0
  constructor
  · intro e he
    rcases mem_append.mp he with he | he
    · rw [hlower] at he
      obtain ⟨k, hk, rfl⟩ := mem_mapIdx.mp he
      exact (embeddedWindows_splitExpr id (0 + k) _).1
    · obtain ⟨c, -, rfl⟩ := mem_map.mp he
      rfl
  · -- Window functions are counted without a look at columns, and forwarding changes only these.
    have hblind : ∀ es : List Expr, (es.map (Expr.mapColumns fun _ => default)).map
        Expr.embeddedWindows = es.map Expr.embeddedWindows := fun es => by
      rw [map_map]
      exact map_congr_left fun e _ => Expr.embeddedWindows_mapColumns _ e
    have hforward : (splitUpper id j.exprs).1.map (Expr.mapColumns fun _ => default) =
        (splitWindows id j.exprs 0).upper.map (Expr.mapColumns fun _ => default) :=
      settles_splitUpper (g := fun _ l => (Expr.leaf l).mapColumns fun _ => default)
        fun _ _ _ _ _ => rfl
    rw [← hblind, hforward, hblind, hupper]
    refine ext_getElem? fun k => ?_
    rw [getElem?_map, getElem?_mapIdx, getElem?_map, Option.map_map]
    exact congrFun (congrArg Option.map
      (funext fun e => (embeddedWindows_splitExpr id (0 + k) e).2)) j.exprs[k]?

/-! ### Plans -/

/-- The most window functions that lie inside of one expression of a projection, of which it is
none itself. -/
def Operator.embeddedWindows : Operator → Nat
  | .project j => (j.exprs.map Expr.embeddedWindows).foldr max 0
  | _ => 0

theorem Operator.embeddedWindows_le_iff {op : Operator} {k : Nat} :
    op.embeddedWindows ≤ k ↔ ∀ j, op = .project j → ∀ e ∈ j.exprs, e.embeddedWindows ≤ k := by
  cases op with
  | project j =>
      have hmax : ∀ es : List Expr, (es.map Expr.embeddedWindows).foldr max 0 ≤ k ↔
          ∀ e ∈ es, e.embeddedWindows ≤ k := fun es => by
        induction es with
        | nil => simp
        | cons e es ih => rw [map_cons, foldr_cons, Nat.max_le, ih, forall_mem_cons]
      refine (hmax j.exprs).trans ⟨?_, fun h => h j rfl⟩
      rintro h _ ⟨⟩
      exact h
  | _ => exact ⟨fun _ => nofun, fun _ => Nat.zero_le k⟩

theorem Operator.embeddedWindows_mapColumns (f : ColumnRef → ColumnRef) (op : Operator) :
    (op.mapExprs (Expr.mapColumns f)).embeddedWindows = op.embeddedWindows := by
  cases op with
  | project j =>
      change ((j.exprs.map _).map _).foldr max 0 = _
      rw [map_map]
      exact congrArg (foldr max 0) (map_congr_left fun e _ => Expr.embeddedWindows_mapColumns f e)
  | _ => rfl

namespace Plan

variable {p q : Plan} {id : NodeId} {j : Project} {next next' : Nat}

/-- The most window functions that lie inside of one expression of a node. -/
def embeddedWindows (p : Plan) (id : NodeId) : Nat := (p.op id).embeddedWindows

theorem embedsWindow_eq_false_iff : p.embedsWindow id = false ↔ p.embeddedWindows id = 0 := by
  rw [← Nat.le_zero, embeddedWindows, Operator.embeddedWindows_le_iff, embedsWindow]
  cases p.op id with
  | project j =>
      rw [any_eq_false]
      simp only [Bool.not_eq_true, Expr.embedsWindow_eq_false_iff, Operator.project.injEq,
        forall_eq', Nat.le_zero]
  | _ => exact ⟨fun _ => nofun, fun _ => rfl⟩

theorem embeddedWindows_of_renamed {σ : NodeId → NodeId} (h : q.node id = (p.node id).renamed σ) :
    q.embeddedWindows id = p.embeddedWindows id := by
  rw [embeddedWindows, Plan.op, h]
  exact Operator.embeddedWindows_mapColumns _ _

theorem Halved.embeddedWindows_lower (h : Halved p q id j) : q.embeddedWindows id = 0 := by
  rw [embeddedWindows, Plan.op, h.node_lower, Node.op_renamed, Operator.embeddedWindows_mapColumns,
    ← Nat.le_zero, Operator.embeddedWindows_le_iff]
  rintro _ ⟨⟩ e he
  exact Nat.le_of_eq ((embeddedWindows_halves p id j).1 e he)

theorem Halved.embeddedWindows_upper (h : Halved p q id j) :
    q.embeddedWindows p.nextId = p.embeddedWindows id - 1 := by
  obtain ⟨buildId, hnode⟩ := h.node_upper
  have hexprs := (embeddedWindows_halves p id j).2
  refine eq_of_forall_ge_iff fun k => ?_
  rw [Nat.sub_le_iff_le_add, embeddedWindows, embeddedWindows, Plan.op, hnode, h.op_before,
    Operator.embeddedWindows_le_iff, Operator.embeddedWindows_le_iff]
  constructor
  · rintro hupper _ ⟨⟩ e he
    have hmem : e.embeddedWindows - 1 ∈ (splitUpper id j.exprs).1.map Expr.embeddedWindows := by
      rw [hexprs]
      exact mem_map_of_mem he
    obtain ⟨d, hd, heq⟩ := mem_map.mp hmem
    exact Nat.sub_le_iff_le_add.mp (heq ▸ hupper _ rfl d hd)
  · rintro hbefore _ ⟨⟩ d hd
    have hmem : d.embeddedWindows ∈ j.exprs.map fun e => e.embeddedWindows - 1 := by
      rw [← hexprs]
      exact mem_map_of_mem hd
    obtain ⟨e, he, heq⟩ := mem_map.mp hmem
    exact heq ▸ Nat.sub_le_iff_le_add.mpr (hbefore j rfl e he)

/-- What becomes of a projection, by the most window functions inside of one expression. -/
def halvedWindows (k : Nat) : List Nat := if k = 0 then [0] else [0, k - 1]

/-- **What the separation of window functions leaves.** A projection that embeds window functions
becomes one that embeds none and one with one less in each expression. -/
theorem embeddedWindows_separateWindows (h : p.Ordered p.order)
    (hq : p.separateWindows next = .ok (q, next')) :
    q.order.map q.embeddedWindows =
      p.order.flatMap fun id => halvedWindows (p.embeddedWindows id) := by
  unfold separateWindows at hq
  rw [Fresh.foldlM_eq] at hq
  have hrun := Result.foldlM_induct
    (motive := fun done (s : Plan × Nat) => ∀ rest, p.order = done ++ rest →
      s.1.Ordered s.1.order ∧ ∃ seen, s.1.order = seen ++ rest ∧
        seen.map s.1.embeddedWindows =
          (done.flatMap fun id => halvedWindows (p.embeddedWindows id)) ∧
        ∀ x ∈ rest, s.1.embeddedWindows x = p.embeddedWindows x) hq ?_ ?_
  · obtain ⟨-, seen, horder, hseen, -⟩ := hrun [] (append_nil _).symm
    rw [horder, append_nil, hseen]
  · rintro rest rfl
    exact ⟨h, [], rfl, rfl, fun _ _ => rfl⟩
  rintro done id post ⟨r, n⟩ ⟨r', n'⟩ hsplit hinv hstep rest hrest
  rw [hsplit, append_assoc, append_cancel_left_eq, singleton_append, cons.injEq] at hrest
  obtain ⟨-, rfl⟩ := hrest
  obtain ⟨hr, seen, horder, hseen, hrest⟩ := hinv (id :: post) hsplit
  dsimp only at hr horder hseen hrest ⊢
  have hid : id ∈ r.order := horder ▸ by simp
  refine ⟨(separateWindow_ordered hr hstep).1, ?_⟩
  rw [flatMap_append, flatMap_singleton, ← hrest id mem_cons_self, ← hseen]
  rcases hr.separateWindow hid hstep with ⟨hembeds, rfl⟩ | ⟨hembeds, j, hhalved⟩
  · rw [embedsWindow_eq_false_iff] at hembeds
    refine ⟨seen ++ [id], by rw [horder, append_assoc]; rfl, ?_, fun x hx =>
      hrest x (mem_cons_of_mem _ hx)⟩
    rw [map_append, map_singleton, hembeds]
    rfl
  · have hzero : r.embeddedWindows id ≠ 0 := fun hzero => by
      rw [embedsWindow_eq_false_iff.mpr hzero] at hembeds
      cases hembeds
    obtain ⟨pre, back, hbefore, hafter⟩ := hhalved.order_eq
    have hnodup := nodup_cons.mp (nodup_middle.mp (horder ▸ hr.nodup))
    rw [mem_append, not_or] at hnodup
    rw [horder] at hbefore
    obtain ⟨rfl, -, rfl⟩ := (append_cons_inj_of_notMem hnodup.1.1 hnodup.1.2).mp hbefore
    have hother : ∀ x ∈ seen ++ post, r'.embeddedWindows x = r.embeddedWindows x := by
      intro x hx
      have hlive : x ∈ r.order := by
        rw [horder, mem_middle_iff]
        exact .inr hx
      refine embeddedWindows_of_renamed (hhalved.node_other x hlive ?_)
      rintro rfl
      exact (mem_append.mp hx).elim hnodup.1.1 hnodup.1.2
    refine ⟨seen ++ [id, r.nextId], by rw [hafter, append_assoc]; rfl, ?_, fun x hx => ?_⟩
    · rw [map_append, map_cons, map_singleton, hhalved.embeddedWindows_lower,
        hhalved.embeddedWindows_upper, halvedWindows, if_neg hzero]
      exact congrArg (· ++ _) (map_congr_left fun x hx => hother x (mem_append_left _ hx))
    · rw [hother x (mem_append_right _ hx), hrest x (mem_cons_of_mem _ hx)]

/-- **When the separation of window functions is complete.** No window function lies inside of an
expression afterwards if and only if there was at most one to cut out of each expression before. The
expression that stays above is not looked at again, so it keeps the second one. -/
theorem separation_complete_iff (h : p.Ordered p.order)
    (hq : p.separateWindows next = .ok (q, next')) :
    (∀ id ∈ q.order, ∀ j, q.op id = .project j →
      ∀ e ∈ j.exprs, e.isWindow = true ∨ e.hasWindow = false) ↔
      ∀ id ∈ p.order, ∀ j, p.op id = .project j →
        ∀ e ∈ j.exprs, e.isWindow = true ∨ e.innerWindows ≤ 1 := by
  have hbefore : ∀ e : Expr, e.isWindow = true ∨ e.innerWindows ≤ 1 ↔ e.embeddedWindows ≤ 1 := by
    intro e
    cases hwindow : e.isWindow with
    | true => simp [Expr.embeddedWindows_of_isWindow hwindow]
    | false => simp [Expr.embeddedWindows_of_not_isWindow hwindow]
  have hhalved : ∀ k, (∀ n ∈ halvedWindows k, n ≤ 0) ↔ k ≤ 1 := by
    intro k
    rw [halvedWindows]
    split
    · next hk => simp [hk]
    · simp [Nat.sub_eq_zero_iff_le]
  have hleft := embeddedWindows_separateWindows h hq
  calc (∀ id ∈ q.order, ∀ j, q.op id = .project j →
        ∀ e ∈ j.exprs, e.isWindow = true ∨ e.hasWindow = false)
      ↔ ∀ id ∈ q.order, q.embeddedWindows id ≤ 0 := by
        simp only [← Expr.embeddedWindows_eq_zero_iff, ← Nat.le_zero, embeddedWindows,
          Operator.embeddedWindows_le_iff]
    _ ↔ ∀ n ∈ q.order.map q.embeddedWindows, n ≤ 0 := by rw [forall_mem_map]
    _ ↔ ∀ id ∈ p.order, p.embeddedWindows id ≤ 1 := by
        simp only [hleft, mem_flatMap, forall_exists_index, and_imp]
        rw [forall_comm]
        exact forall_congr' fun id => ⟨fun hall hid => (hhalved _).mp fun n hn => hall n hid hn,
          fun hall n hid hn => (hhalved _).mpr (hall hid) n hn⟩
    _ ↔ _ := by
        simp only [hbefore, embeddedWindows, Operator.embeddedWindows_le_iff]

/-- The rank of a row. -/
def rowRank : Expr := .app (.window { (default : WindowCall) with kind := .rank }) []

/-- A projection to a rank plus something else. -/
def rankPlus (e : Expr) : Plan :=
  { arena := #[.make 0 [] (.values ⟨[⟨"a", .condition⟩], [[.bool true]]⟩),
      .make 1 [⟨0⟩] (.project (.plain [.app (.operator .plus .condition) [rowRank, e]] ["b"]))]
    order := [⟨0⟩, ⟨1⟩] }

/-- A rank plus a column is taken apart completely. -/
theorem separation_complete_rankPlusColumn : ∃ q,
    (rankPlus (.column ⟨⟨0⟩, 0⟩)).Ordered (rankPlus (.column ⟨⟨0⟩, 0⟩)).order ∧
      (rankPlus (.column ⟨⟨0⟩, 0⟩)).separateWindows 2 = .ok (q, 3) ∧
      q.order = [⟨0⟩, ⟨1⟩, ⟨2⟩] ∧
      ∀ id ∈ q.order, ∀ j, q.op id = .project j →
        ∀ e ∈ j.exprs, e.isWindow = true ∨ e.hasWindow = false := by
  have hordered : (rankPlus (.column ⟨⟨0⟩, 0⟩)).Ordered (rankPlus (.column ⟨⟨0⟩, 0⟩)).order :=
    ⟨by decide, by decide, by decide⟩
  have hrun : ((rankPlus (.column ⟨⟨0⟩, 0⟩)).separateWindows 2).holds
      (fun s => s.2 == 3 && s.1.order == [⟨0⟩, ⟨1⟩, ⟨2⟩]) = true := by decide +kernel
  obtain ⟨⟨q, n⟩, hq, hresult⟩ := Result.holds_eq_true.mp hrun
  simp only [Bool.and_eq_true, beq_iff_eq] at hresult
  obtain ⟨rfl, horder⟩ := hresult
  refine ⟨q, hordered, hq, horder, (separation_complete_iff hordered hq).mpr ?_⟩
  intro id hid j hop e he
  rcases mem_cons.mp hid with rfl | hid
  · cases hop
  · obtain rfl := mem_singleton.mp hid
    cases hop
    obtain rfl := mem_singleton.mp he
    exact .inr (by decide)

/-- A rank plus a rank keeps the second rank inside of a sum. -/
theorem separation_incomplete_rankPlusRank : (rankPlus rowRank).WellFormed ∧
    ∃ q, (rankPlus rowRank).separateWindows 2 = .ok (q, 3) ∧
      ∃ id ∈ q.order, ∃ j, q.op id = .project j ∧
        ∃ e ∈ j.exprs, e.isWindow = false ∧ e.hasWindow = true := by
  refine ⟨wellFormed_of_reads ⟨⟨by decide, by decide, by decide⟩, by decide⟩ (by decide) (by decide)
    (by decide +kernel), ?_⟩
  have hrun : ((rankPlus rowRank).separateWindows 2).holds (fun s => s.2 == 3 &&
      s.1.order.contains ⟨2⟩ && match s.1.op ⟨2⟩ with
        | .project j => j.exprs.any fun e => !e.isWindow && e.hasWindow
        | _ => false) = true := by decide +kernel
  obtain ⟨⟨q, n⟩, hq, hresult⟩ := Result.holds_eq_true.mp hrun
  rw [Bool.and_eq_true, Bool.and_eq_true, beq_iff_eq, contains_iff_mem] at hresult
  obtain ⟨⟨rfl, hlive⟩, hleft⟩ := hresult
  cases hop : q.op ⟨2⟩ with
  | project j =>
      rw [hop, any_eq_true] at hleft
      obtain ⟨e, he, hwindow⟩ := hleft
      rw [Bool.and_eq_true, Bool.not_eq_true'] at hwindow
      exact ⟨q, hq, ⟨2⟩, hlive, j, hop, e, he, hwindow⟩
  | _ =>
      rw [hop] at hleft
      cases hleft

end Plan

end QueryPlan
