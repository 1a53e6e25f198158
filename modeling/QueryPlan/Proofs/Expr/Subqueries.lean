import QueryPlan.Proofs.Expr.Conjuncts
import QueryPlan.Proofs.Expr.WindowSplit
/-!
# QueryPlan.Proofs.Expr.Subqueries

**The subqueries in an expression.** A leaf that stands for a subquery is carried along like a
constant: a change of columns keeps the subqueries of an expression, and an expression that is put
together from parts of others has no other subqueries than these.
-/

namespace QueryPlan

open List

/-- The subquery that a leaf stands for. -/
def Leaf.subquery? : Leaf → Option Subquery
  | .subquery query _ => some query
  | _ => none

namespace Expr

/-- The subqueries in an expression, left to right. -/
def subqueries (e : Expr) : List Subquery := e.leaves.filterMap Leaf.subquery?

variable {e e' : Expr} {x : Subquery}

@[simp] theorem subqueries_leaf (l : Leaf) : (leaf l).subqueries = l.subquery?.toList := by
  cases l <;> rfl

@[simp] theorem subqueries_app (head : Head) (args : List Expr) :
    (app head args).subqueries = args.flatMap subqueries := by
  rw [subqueries, leaves_app, filterMap_flatMap]
  rfl

theorem mem_subqueries : x ∈ e.subqueries ↔ ∃ l ∈ e.leaves, l.subquery? = some x := mem_filterMap

theorem mem_flatMap_subqueries {es : List Expr} :
    x ∈ es.flatMap subqueries ↔ ∃ l ∈ es.flatMap leaves, l.subquery? = some x := by
  simp only [mem_flatMap, mem_subqueries]
  grind

theorem subqueries_subset_of_leaves {es : List Expr} (h : e.leaves ⊆ es.flatMap leaves) :
    e.subqueries ⊆ es.flatMap subqueries := fun x hx => by
  obtain ⟨l, hl, hx⟩ := mem_subqueries.mp hx
  exact mem_flatMap_subqueries.mpr ⟨l, h hl, hx⟩

/-- A change of leaves has the subqueries of what it puts in their place. -/
theorem exists_of_mem_subqueries_mapLeavesM {f : Leaf → Result Expr}
    (h : e.mapLeavesM f = .ok e') (hx : x ∈ e'.subqueries) :
    ∃ l ∈ e.leaves, ∃ d, f l = .ok d ∧ x ∈ d.subqueries := by
  obtain ⟨k, hk, hx⟩ := mem_subqueries.mp hx
  obtain ⟨l, hl, d, hd, hk⟩ := mem_leaves_of_mapLeavesM h k hk
  exact ⟨l, hl, d, hd, mem_subqueries.mpr ⟨k, hk, hx⟩⟩

@[simp] theorem subqueries_mapColumns (f : ColumnRef → ColumnRef) (e : Expr) :
    (e.mapColumns f).subqueries = e.subqueries := by
  induction e using ind with
  | leaf l => cases l <;> rfl
  | app head args ih =>
      rw [mapColumns_app, subqueries_app, subqueries_app, flatMap_map]
      exact flatMap_congr ih

theorem subqueries_mapColumnsM {f : ColumnRef → Result ColumnRef} (h : e.mapColumnsM f = .ok e') :
    e'.subqueries = e.subqueries := by
  rw [(mapColumnsM_inv h).2, subqueries_mapColumns]

/-- A list of changes of columns keeps the subqueries. -/
theorem subqueries_mapM_mapColumnsM {f : ColumnRef → Result ColumnRef} {es es' : List Expr}
    (h : es.mapM (mapColumnsM f) = .ok es') : es'.flatMap subqueries = es.flatMap subqueries := by
  rw [Result.mapM_eq_ok] at h
  induction h with
  | nil => rfl
  | cons he _ ih => rw [flatMap_cons, flatMap_cons, subqueries_mapColumnsM he, ih]

/-! ### Conditions -/

theorem subqueries_conjuncts (e : Expr) : e.conjuncts.flatMap subqueries = e.subqueries := by
  rw [subqueries, ← leaves_conjuncts e, filterMap_flatMap]
  rfl

theorem subqueries_of_all? {es : List Expr} (h : all? es = some e) :
    e.subqueries = es.flatMap subqueries := by
  rw [subqueries, leaves_of_all? h, filterMap_flatMap]
  rfl

/-! ### Window functions -/

variable {id : NodeId}

/-- Neither half of a projection taken apart has other subqueries than the projection. -/
theorem subqueries_splitWindows (es : List Expr) (i : Nat) :
    (splitWindows id es i).lower.flatMap subqueries ⊆ es.flatMap subqueries ∧
      (splitWindows id es i).upper.flatMap subqueries ⊆ es.flatMap subqueries := by
  constructor
  · intro x hx
    obtain ⟨l, hl, hx⟩ := mem_flatMap_subqueries.mp hx
    exact mem_flatMap_subqueries.mpr ⟨l, leaves_splitWindows_lower es i hl, hx⟩
  · intro x hx
    obtain ⟨e, he, hx⟩ := mem_flatMap.mp hx
    rcases mem_splitWindows_upper es i e he with ⟨k, -, rfl⟩ | ⟨-, hleaves⟩
    · cases hx
    · obtain ⟨l, hl, hx⟩ := mem_subqueries.mp hx
      rcases hleaves l hl with ⟨k, -, rfl⟩ | hl
      · cases hx
      · exact mem_flatMap_subqueries.mpr ⟨l, hl, hx⟩

/-- Whatever is carried along, every subquery is one of those from before. -/
def amongSubqueries (σ : Type) (allowed : List Subquery) : Carried σ where
  State _ := True
  Below _ _ := True
  Leaf _ l := ∀ x, l.subquery? = some x → x ∈ allowed
  refl _ := trivial
  trans _ _ := trivial
  mono _ h := h

/-- Forwarding columns keeps the subqueries of an expression. -/
theorem forwardColumns_among {width : Nat} {allowed : List Subquery}
    (he : e.subqueries ⊆ allowed) (s : List ColumnRef) :
    (amongSubqueries _ allowed).Keeps ((forwardColumns id width e).run s).1.leaves s
      ((forwardColumns id width e).run s).2 := by
  have hleaf : ∀ l ∈ e.leaves, ∀ x, l.subquery? = some x → x ∈ allowed := fun l hl x hx =>
    he (mem_subqueries.mpr ⟨l, hl, hx⟩)
  unfold forwardColumns
  split
  · exact ⟨trivial, trivial, hleaf⟩
  · refine Carried.mapLeavesM_state _ (fun l hl s _ => ?_) trivial
    cases l with
    | column c =>
        refine ⟨trivial, trivial, fun k hk x hx => ?_⟩
        -- Whatever becomes of a column is a column.
        have hcolumn : k ∈ [Leaf.column _] := hk
        rw [mem_singleton.mp hcolumn] at hx
        cases hx
    | _ =>
        refine ⟨trivial, trivial, fun k hk => ?_⟩
        rw [mem_singleton.mp hk]
        exact hleaf _ hl

theorem subqueries_splitUpper (es : List Expr) :
    (splitUpper id es).1.flatMap subqueries ⊆ es.flatMap subqueries := by
  intro x hx
  obtain ⟨l, hl, hx⟩ := mem_flatMap_subqueries.mp hx
  have hforward : ∀ e ∈ (splitWindows id es 0).upper, ∀ s, True →
      (amongSubqueries _ (es.flatMap subqueries)).Keeps
        ((forwardColumns id es.length e).run s).1.leaves s ((forwardColumns id es.length e).run s).2 :=
    fun e he s _ => forwardColumns_among
      (fun x hx => (subqueries_splitWindows es 0).2 (mem_flatMap.mpr ⟨e, he, hx⟩)) s
  have hkeeps := ((amongSubqueries _ (es.flatMap subqueries)).mapM_state hforward (s := [])
    trivial).1
  exact hkeeps.2.2 l hl x hx

end Expr

end QueryPlan
