import QueryPlan.Proofs.Meaning.Rows
/-!
# QueryPlan.Proofs.RedundantSorts.Order

**Rows that are sorted twice.** If values are in a total order for every kind of key
(`Meaning.Orders`), so are rows for every list of keys. Then a sort does not see whether its rows,
or rows that they were made from one by one, had been sorted by keys with the same values before
(`Meaning.Orders.sorted_map_sorted`).
-/

namespace QueryPlan

open List

namespace Meaning

variable {V : Type} {M : Meaning V}

/-- Values are in a total order, in either direction and wherever nulls are put. -/
def Orders (M : Meaning V) : Prop :=
  ∀ direction nulls, Std.TransCmp (M.compare direction nulls)

/-- The comparison of rows by some keys, the first of them first. -/
def compareRows (M : Meaning V) (keys : List SortKey) (a b : List V) : Ordering :=
  keys.foldr (fun k rest =>
    (M.compare k.direction k.nulls (M.cell a k.column) (M.cell b k.column)).then rest) .eq

theorem precedes_eq (keys : List SortKey) (a b : List V) :
    M.precedes keys a b = (M.compareRows keys a b).isLE := by
  rw [precedes, compareRows]
  generalize foldr _ _ _ = o
  cases o <;> rfl

/-- Keys with the same values compare rows the same way. -/
theorem compareRows_congr {s t : List SortKey} {a b a' b' : List V}
    (h : Forall₂ (fun k l => k.direction = l.direction ∧ k.nulls = l.nulls ∧
      M.cell a k.column = M.cell a' l.column ∧ M.cell b k.column = M.cell b' l.column) s t) :
    M.compareRows s a b = M.compareRows t a' b' := by
  induction h with
  | nil => rfl
  | @cons k l s t hkey _ ih =>
      obtain ⟨hdirection, hnulls, ha, hb⟩ := hkey
      change (M.compare k.direction k.nulls _ _).then (M.compareRows s a b) =
        (M.compare l.direction l.nulls _ _).then (M.compareRows t a' b')
      rw [ih, hdirection, hnulls, ha, hb]

theorem sorted_of_isPlain {s : Sorting} (h : s.isPlain = true) (rows : Rows V) :
    M.sorted s rows = rows.mergeSort (M.precedes s.collation) := by
  simp only [Sorting.isPlain, Bool.and_eq_true, Option.isNone_iff_eq_none, beq_iff_eq,
    Bool.not_eq_true'] at h
  obtain ⟨⟨hlimit, hoffset⟩, hempty⟩ := h
  rw [sorted, hlimit, hoffset, hempty]
  rfl

theorem sorted_congr {s : Sorting} {rows rows' : Rows V}
    (h : rows.mergeSort (M.precedes s.collation) = rows'.mergeSort (M.precedes s.collation)) :
    M.sorted s rows = M.sorted s rows' := by
  rw [sorted, sorted, h]

namespace Orders

variable (hM : M.Orders)
include hM

theorem transCmp_rows (keys : List SortKey) : Std.TransCmp (M.compareRows keys) := by
  induction keys with
  | nil => exact { eq_swap := rfl, isLE_trans := fun _ _ => rfl }
  | cons k keys ih =>
      have hvalues := hM k.direction k.nulls
      have hkey : Std.TransCmp fun a b : List V =>
          M.compare k.direction k.nulls (M.cell a k.column) (M.cell b k.column) :=
        { eq_swap := hvalues.eq_swap, isLE_trans := hvalues.isLE_trans }
      exact inferInstanceAs (Std.TransCmp (compareLex _ (M.compareRows keys)))

/-- Sorting sorted rows by the same keys does nothing. -/
theorem mergeSort_mergeSort (keys : List SortKey) (rows : Rows V) :
    (rows.mergeSort (M.precedes keys)).mergeSort (M.precedes keys) =
      rows.mergeSort (M.precedes keys) := by
  have hcmp := hM.transCmp_rows keys
  refine mergeSort_of_pairwise (pairwise_mergeSort (fun a b c hab hbc => ?_) (fun a b => ?_) rows)
  · rw [precedes_eq] at hab hbc ⊢
    exact hcmp.isLE_trans hab hbc
  · rw [precedes_eq, precedes_eq, hcmp.eq_swap (a := a)]
    cases M.compareRows keys b a <;> rfl

/-- A sort does not see that rows were sorted by keys with the same values before they were made
into others. -/
theorem sorted_map_sorted {s t : Sorting} (hplain : s.isPlain = true) {g : List V → List V}
    {rows : Rows V} (hkeys : Forall₂ (fun k l => k.direction = l.direction ∧ k.nulls = l.nulls ∧
      ∀ row ∈ rows, M.cell row k.column = M.cell (g row) l.column) s.collation t.collation) :
    M.sorted t ((M.sorted s rows).map g) = M.sorted t (rows.map g) := by
  have hprecedes : ∀ a ∈ rows, ∀ b ∈ rows,
      M.precedes s.collation a b = M.precedes t.collation (g a) (g b) := by
    intro a ha b hb
    rw [precedes_eq, precedes_eq]
    refine congrArg Ordering.isLE (compareRows_congr (hkeys.imp fun k l hkl => ?_))
    exact ⟨hkl.1, hkl.2.1, hkl.2.2 a ha, hkl.2.2 b hb⟩
  apply sorted_congr
  rw [sorted_of_isPlain hplain, ← map_mergeSort fun a ha b hb =>
      hprecedes a (mem_mergeSort.mp ha) b (mem_mergeSort.mp hb),
    ← map_mergeSort hprecedes, hM.mergeSort_mergeSort]

end Orders

end Meaning

end QueryPlan
