import QueryPlan.Expr.Conjunction
import QueryPlan.Proofs.Expr.Columns
/-!
# QueryPlan.Proofs.Expr.Conjuncts

**Nothing is lost between a condition and its conjuncts.** The conjuncts of a condition have its
leaves, in order, and so has a conjunction those of its parts. So a condition that is put together
from conjuncts of others refers to no other columns than these.
-/

namespace QueryPlan

namespace Expr

theorem conjunctsAll_eq (es : List Expr) : conjunctsAll es = es.flatMap conjuncts := by
  induction es with
  | nil => rfl
  | cons e es ih => rw [conjunctsAll, ih, List.flatMap_cons]

theorem conjuncts_and (type : SqlType) (args : List Expr) :
    (app (.operator .and type) args).conjuncts = args.flatMap conjuncts := by
  rw [conjuncts, conjunctsAll_eq]

/-- An expression is an `AND` or its own only conjunct. -/
theorem and_or_conjuncts_eq (e : Expr) :
    (∃ type args, e = .app (.operator .and type) args) ∨ e.conjuncts = [e] := by
  unfold conjuncts
  split
  · exact .inl ⟨_, _, rfl⟩
  · exact .inr rfl

/-- The conjuncts have the leaves of the condition. -/
theorem leaves_conjuncts (e : Expr) : e.conjuncts.flatMap leaves = e.leaves := by
  induction e using ind with
  | leaf l => simp [conjuncts]
  | app head args ih =>
      rcases and_or_conjuncts_eq (app head args) with ⟨type, args', h⟩ | h
      · cases h
        rw [conjuncts_and, leaves_app, List.flatMap_assoc]
        exact List.flatMap_congr ih
      · rw [h, List.flatMap_singleton]

theorem leaves_of_all? {es : List Expr} {e : Expr} (h : all? es = some e) :
    e.leaves = es.flatMap leaves := by
  match es, h with
  | [_], h => cases h; simp
  | _ :: _ :: _, h => cases h; rw [leaves_app]

theorem all?_eq_none_iff {es : List Expr} : all? es = none ↔ es = [] := by
  match es with
  | [] => simp [all?]
  | [_] => simp [all?]
  | _ :: _ :: _ => simp [all?]

/-- What is no `AND` is its own only conjunct. -/
theorem conjuncts_app {head : Head} (hhead : ∀ type, head ≠ .operator .and type)
    (args : List Expr) : (app head args).conjuncts = [app head args] := by
  unfold conjuncts
  split
  · next heq =>
    cases heq
    exact absurd rfl (hhead _)
  · rfl

/-- No conjunct is an `AND`, however deep they are nested. -/
theorem ne_and_of_mem_conjuncts {e d : Expr} (h : d ∈ e.conjuncts) (type : SqlType)
    (args : List Expr) : d ≠ .app (.operator .and type) args := by
  induction e using ind with
  | leaf l =>
      obtain rfl := List.mem_singleton.mp h
      exact nofun
  | app head operands ih =>
      by_cases hand : ∃ type, head = .operator .and type
      · obtain ⟨_, rfl⟩ := hand
        rw [conjuncts_and] at h
        obtain ⟨operand, hoperand, h⟩ := List.mem_flatMap.mp h
        exact ih operand hoperand h
      · have hhead : ∀ type, head ≠ .operator .and type := fun type h => hand ⟨type, h⟩
        rw [conjuncts_app hhead, List.mem_singleton] at h
        rintro rfl
        cases h
        exact hhead type rfl

/-- A conjunct is its own only conjunct. -/
theorem conjuncts_of_mem_conjuncts {e d : Expr} (h : d ∈ e.conjuncts) : d.conjuncts = [d] := by
  rcases d.and_or_conjuncts_eq with ⟨type, args, hand⟩ | hself
  · exact absurd hand (ne_and_of_mem_conjuncts h type args)
  · exact hself

/-- A conjunction has the conjuncts of its parts. -/
theorem conjuncts_of_all? {es : List Expr} {e : Expr} (h : all? es = some e) :
    e.conjuncts = es.flatMap conjuncts := by
  match es, h with
  | [_], h => cases h; simp
  | _ :: _ :: _, h => cases h; rw [conjuncts_and]

/-- A conjunction of conjuncts has these. -/
theorem conjuncts_of_all?_conjuncts {es : List Expr} {e : Expr} (h : all? es = some e)
    (hes : ∀ d ∈ es, d.conjuncts = [d]) : e.conjuncts = es := by
  rw [conjuncts_of_all? h, List.flatMap_congr hes, List.flatMap_singleton']

/-- Moving the columns of a condition moves those of its conjuncts. -/
theorem conjuncts_mapColumns (φ : ColumnRef → ColumnRef) (e : Expr) :
    (e.mapColumns φ).conjuncts = e.conjuncts.map (mapColumns φ) := by
  induction e using ind with
  | leaf l => cases l <;> rfl
  | app head args ih =>
      rw [mapColumns_app]
      by_cases hand : ∃ type, head = .operator .and type
      · obtain ⟨type, rfl⟩ := hand
        rw [conjuncts_and, conjuncts_and, List.flatMap_map, List.map_flatMap]
        exact List.flatMap_congr ih
      · have hhead : ∀ type, head ≠ .operator .and type := fun type h => hand ⟨type, h⟩
        rw [conjuncts_app hhead, conjuncts_app hhead, List.map_singleton, mapColumns_app]

/-- Moving the columns of an expression does not make it the constant `true`, or another one. -/
theorem isTrue_mapColumns (φ : ColumnRef → ColumnRef) (e : Expr) :
    (e.mapColumns φ).isTrue = e.isTrue := by
  cases e with
  | leaf l => cases l <;> rfl
  | app head args =>
      rw [mapColumns_app]
      rfl

/-- The constant `true` is its own only conjunct. -/
theorem isTrue_of_mem_conjuncts {e d : Expr} (he : e.isTrue = true) (hd : d ∈ e.conjuncts) :
    d.isTrue = true := by
  cases e with
  | leaf l => exact List.mem_singleton.mp hd ▸ he
  | app head args => cases he

theorem columns_of_isTrue {e : Expr} (he : e.isTrue = true) : e.columns = [] := by
  cases e with
  | leaf l => cases l <;> first | rfl | cases he
  | app head args => cases he

theorem leaves_subset_of_mem_conjuncts {e d : Expr} (h : d ∈ e.conjuncts) :
    d.leaves ⊆ e.leaves := by
  rw [← leaves_conjuncts e]
  exact fun l hl => List.mem_flatMap.mpr ⟨d, h, hl⟩

/-- A conjunction has its leaves from its parts. -/
theorem exists_of_mem_leaves_all? {es : List Expr} {e : Expr} (h : all? es = some e) {l : Leaf}
    (hl : l ∈ e.leaves) : ∃ d ∈ es, l ∈ d.leaves := by
  rwa [leaves_of_all? h, List.mem_flatMap] at hl

theorem columns_subset_of_mem_conjuncts {e d : Expr} (h : d ∈ e.conjuncts) :
    d.columns ⊆ e.columns := fun _ hc =>
  mem_columns_iff.mpr (leaves_subset_of_mem_conjuncts h (mem_columns_iff.mp hc))

/-- A conjunction of conjuncts of a condition refers to nothing else than the condition. -/
theorem columns_subset_of_all? {es : List Expr} {e d : Expr} (hes : es ⊆ e.conjuncts)
    (h : all? es = some d) : d.columns ⊆ e.columns := fun c hc => by
  obtain ⟨part, hpart, hleaf⟩ := exists_of_mem_leaves_all? h (mem_columns_iff.mp hc)
  exact columns_subset_of_mem_conjuncts (hes hpart) (mem_columns_iff.mpr hleaf)

/-- A conjunction, or the truth if it has no parts, refers to what its parts refer to. -/
theorem exists_of_mem_columns_all? {es : List Expr} {c : ColumnRef}
    (hc : c ∈ ((all? es).getD (bool true)).columns) : ∃ d ∈ es, c ∈ d.columns := by
  cases hall : all? es with
  | none =>
      rw [hall] at hc
      cases hc
  | some e =>
      rw [hall, Option.getD_some] at hc
      obtain ⟨d, hd, hleaf⟩ := exists_of_mem_leaves_all? hall (mem_columns_iff.mp hc)
      exact ⟨d, hd, mem_columns_iff.mpr hleaf⟩

end Expr

end QueryPlan
