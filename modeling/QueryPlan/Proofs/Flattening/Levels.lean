import QueryPlan.Proofs.Expr.Conjuncts
import QueryPlan.Proofs.Flattening.Step
/-!
# QueryPlan.Proofs.Flattening.Levels

**The levels of a chain, from the leftmost relation up.** Each join of a chain adds one level with
its right input (`Plan.Leveled`), and shows the columns of the leftmost relation and of the right
inputs up to its level. So the columns of every join of a chain are the first of the flattened
columns, and a reference to one of them keeps its position (`Leveled.idxOf_chainColumn`).
-/

namespace QueryPlan

open List

namespace Plan

variable {p : Plan} {ids : List NodeId} {x : NodeId} {k : Nat}

/-! ### One level on another -/

variable {top left leftmost : NodeId} {joins : List NodeId} {levels : ChainLevels}

/-- The levels of a chain of joins over a leftmost relation, which has none itself. -/
inductive Leveled (p : Plan) (leftmost : NodeId) : NodeId → List NodeId → ChainLevels → Prop
  | none : Leveled p leftmost leftmost [] .none
  | push {top left right : NodeId} {j : Join} {below : List NodeId} {levels : ChainLevels} :
    p.op top = .join j → p.inputs top = [left, right] → Leveled p leftmost left below levels →
    Leveled p leftmost top (top :: below) (levels.push right j)

theorem Arranged.inputs_of_join {l : List NodeId} (h : p.Arranged l) (htop : top ∈ l)
    {j : Join} (hop : p.op top = .join j) {right : NodeId}
    (hleft : (p.inputs top).head? = some left) (hright : (p.inputs top)[1]? = some right) :
    p.inputs top = [left, right] := by
  obtain ⟨a, b, hab⟩ := h.sides_of_join htop hop
  rw [hab] at hleft hright ⊢
  cases hleft
  cases hright
  rfl

/-- A chain of joins has a level for each of them. -/
theorem JoinChain.leveled (h : p.JoinChain top joins leftmost) (hp : p.Arranged p.order)
    (htop : top ∈ p.order) (hjoin : p.isBinaryJoin top = true)
    (hlevels : joins.reverse.foldlM p.addLevel .none = .ok levels) :
    p.Leveled leftmost top joins levels := by
  induction h generalizing levels with
  | @single top leftmost hleft =>
      obtain ⟨levels₀, hlevels₀, hstep⟩ := Result.bind_eq_ok.mp hlevels
      cases Result.pure_eq_ok.mp hstep
      rcases addLevel_eq_ok hlevels₀ with ⟨hnot, -⟩ | ⟨j, right, hop, hright, rfl⟩
      · rw [hjoin] at hnot
        cases hnot
      · exact .push hop (hp.inputs_of_join htop hop hleft hright) .none
  | @more top left leftmost below hleft hjoinLeft _ _ ih =>
      rw [reverse_cons, Result.foldlM_concat_eq_ok] at hlevels
      obtain ⟨levels₀, hlevels₀, hstep⟩ := hlevels
      have hbelow := ih (hp.mem_of_input htop (mem_of_head? hleft)) hjoinLeft hlevels₀
      rcases addLevel_eq_ok hstep with ⟨hnot, -⟩ | ⟨j, right, hop, hright, rfl⟩
      · rw [hjoin] at hnot
        cases hnot
      · exact .push hop (hp.inputs_of_join htop hop hleft hright) hbelow

namespace Leveled

/-- The topmost join of a chain adds a level to the rest of it. -/
theorem exists_level {top' : NodeId} (h : p.Leveled leftmost top (top' :: joins) levels) :
    ∃ left right j levels₀, p.op top = .join j ∧ p.inputs top = [left, right] ∧
      p.Leveled leftmost left joins levels₀ ∧ levels = levels₀.push right j := by
  cases h with
  | push hop hinputs hchain => exact ⟨_, _, _, _, hop, hinputs, hchain, rfl⟩

theorem length_kinds (h : p.Leveled leftmost top joins levels) :
    levels.kinds.length = levels.inputs.length := by
  induction h with
  | none => rfl
  | push _ _ _ ih => simp [ChainLevels.push, ih]

theorem length_outer (h : p.Leveled leftmost top joins levels) :
    levels.outer.length = levels.inputs.length := by
  induction h with
  | none => rfl
  | push _ _ _ ih => simp [ChainLevels.push, ih]

theorem length_inputs (h : p.Leveled leftmost top joins levels) :
    levels.inputs.length = joins.length := by
  induction h with
  | none => rfl
  | push _ _ _ ih => simp [ChainLevels.push, ih]

/-- The leftmost relation and the inputs of the levels are live. -/
theorem subset (h : p.Leveled leftmost top joins levels) (hp : p.Ordered p.order)
    (htop : top ∈ p.order) : leftmost :: levels.inputs ⊆ p.order := by
  induction h with
  | none => simpa [ChainLevels.none] using htop
  | @push top left right j below levels _ hinputs _ ih =>
      have hmem : ∀ i ∈ [left, right], i ∈ p.order := fun i hi =>
        hp.mem_of_input htop (hinputs ▸ hi)
      change leftmost :: levels.inputs ++ [right] ⊆ p.order
      exact append_subset.mpr ⟨ih (hmem left (by simp)), by simpa using hmem right (by simp)⟩

/-- A chain is as wide as the leftmost relation and the inputs of its levels together. -/
theorem columnCount_eq (h : p.Leveled leftmost top joins levels) (hp : p.Ordered p.order)
    (htop : top ∈ p.order) :
    p.columnCount top = (p.columnsOf (leftmost :: levels.inputs)).length := by
  rw [length_columnsOf]
  induction h with
  | none => simp [ChainLevels.none]
  | @push top left right j below levels hop hinputs _ ih =>
      have hleft : left ∈ p.order := hp.mem_of_input htop (by simp [hinputs])
      rw [hp.columnCount_eq htop, hop, hinputs]
      change ([left, right].map p.columnCount).sum =
        ((leftmost :: (levels.inputs ++ [right])).map p.columnCount).sum
      rw [← cons_append, map_append, sum_append, ← ih hleft]
      simp

/-- A join of a chain is at most as wide as the topmost one. -/
theorem columnCount_le (h : p.Leveled leftmost top joins levels) (hp : p.Ordered p.order)
    (htop : top ∈ p.order) : ∀ x ∈ joins, p.columnCount x ≤ p.columnCount top := by
  induction h with
  | none => exact nofun
  | @push top left right j below levels hop hinputs _ ih =>
      have hleft : left ∈ p.order := hp.mem_of_input htop (by simp [hinputs])
      have hcount : p.columnCount top = p.columnCount left + p.columnCount right := by
        rw [hp.columnCount_eq htop, hop, hinputs]
        simp [Operator.layout, Layout.width]
      intro x hx
      rcases mem_cons.mp hx with rfl | hx
      · exact Nat.le_refl _
      · exact Nat.le_trans (ih hleft x hx) (hcount ▸ Nat.le_add_right _ _)

/-- A join of a chain reads the next join, the leftmost relation or the input of its level. -/
theorem mem_of_inputs (h : p.Leveled leftmost top joins levels) {x i : NodeId} (hx : x ∈ joins)
    (hi : i ∈ p.inputs x) : i ∈ joins ∨ i ∈ leftmost :: levels.inputs := by
  induction h with
  | none => cases hx
  | @push top left right j below levels _ hinputs hchain ih =>
      have hlower : leftmost :: levels.inputs ⊆ leftmost :: (levels.push right j).inputs :=
        cons_subset_cons _ (subset_append_left _ _)
      rcases mem_cons.mp hx with rfl | hx
      · rw [hinputs] at hi
        rcases mem_cons.mp hi with rfl | hi
        · cases hchain with
          | none => exact .inr mem_cons_self
          | push => exact .inl (mem_cons_of_mem _ mem_cons_self)
        · exact .inr (mem_cons_of_mem _ (mem_append_right _ hi))
      · exact (ih hx).imp (mem_cons_of_mem _) fun h => hlower h

/-- The conditions of a chain come from its joins. -/
theorem exists_of_leaves (h : p.Leveled leftmost top joins levels) {e : Expr}
    (he : e ∈ levels.conjuncts ∨ some e ∈ levels.outer) {l : Leaf} (hl : l ∈ e.leaves) :
    ∃ x ∈ joins, ∃ d ∈ (p.op x).exprs, l ∈ d.leaves := by
  induction h with
  | none => simp [ChainLevels.none] at he
  | @push top left right j below levels hop _ _ ih =>
      suffices hnew : (e ∈ levels.conjuncts ∨ some e ∈ levels.outer) ∨
          e = j.condition ∨ e ∈ j.condition.conjuncts by
        rcases hnew with hlower | htop
        · obtain ⟨x, hx, hleaf⟩ := ih hlower
          exact ⟨x, mem_cons_of_mem _ hx, hleaf⟩
        · refine ⟨top, mem_cons_self, j.condition, ?_, ?_⟩
          · rw [hop]
            exact mem_singleton_self _
          · rcases htop with rfl | hconjunct
            · exact hl
            · exact Expr.leaves_subset_of_mem_conjuncts hconjunct hl
      unfold ChainLevels.push at he
      cases hkind : j.kind <;> simp only [hkind, mem_append, mem_singleton] at he <;> grind

end Leveled

/-! ### References to the joins of a chain -/

end Plan

/-- A reference, resolved against the flattened columns if it is to a join of the chain. -/
def chainColumn (joins : List NodeId) (columns : List ColumnRef) (c : ColumnRef) : ColumnRef :=
  if c.source ∈ joins then (columns[c.index]?).getD c else c

namespace Plan

variable {p : Plan} {top left leftmost : NodeId} {joins below : List NodeId} {levels : ChainLevels}
  {columns : List ColumnRef} {e e' : Expr}

theorem resolveChain_eq_ok (h : resolveChain joins columns e = .ok e') :
    e' = e.mapColumns (chainColumn joins columns) := by
  rw [(Expr.mapColumnsM_inv h).2]
  refine Expr.mapColumns_congr fun c _ => ?_
  rw [chainColumn]
  by_cases hmem : c.source ∈ joins
  · rw [if_pos (contains_iff_mem.mpr hmem), if_pos hmem]
    cases columns[c.index]? <;> rfl
  · rw [if_neg (contains_iff_mem.not.mpr hmem), if_neg hmem]
    rfl

/-- The flattened columns of a chain, told apart because the inputs are, none of which belongs to
the chain. -/
structure Apart (p : Plan) (joins : List NodeId) (leftmost : NodeId) (inputs : List NodeId)
    (columns : List ColumnRef) : Prop where
  columns_eq : columns = p.columnsOf (leftmost :: inputs)
  nodup : (leftmost :: inputs).Nodup
  not_mem : ∀ i ∈ leftmost :: inputs, i ∉ joins

section

variable {inputs : List NodeId} (hapart : p.Apart joins leftmost inputs columns)
include hapart

theorem Apart.nodup_columns : columns.Nodup := hapart.columns_eq ▸ nodup_columnsOf hapart.nodup

theorem Apart.prefix_columns {first : List NodeId} (hfirst : first <+: inputs) :
    p.columnsOf (leftmost :: first) <+: columns := by
  obtain ⟨rest, rfl⟩ := hfirst
  rw [hapart.columns_eq, ← cons_append, columnsOf, columnsOf, flatMap_append]
  exact prefix_append _ _

/-- What refers to a join of the chain stays at its position. -/
theorem Leveled.idxOf_chainColumn (h : p.Leveled leftmost top below levels)
    (hp : p.Ordered p.order) (htop : top ∈ p.order) (hbelow : below ⊆ joins)
    (hfirst : levels.inputs <+: inputs) {k : Nat} (hk : k < p.columnCount top) :
    columns.idxOf (chainColumn joins columns ⟨top, k⟩) = k := by
  have hprefix := hapart.prefix_columns hfirst
  have hlt : k < columns.length :=
    Nat.lt_of_lt_of_le (h.columnCount_eq hp htop ▸ hk) hprefix.length_le
  cases h with
  | none =>
      rw [chainColumn, if_neg (hapart.not_mem _ mem_cons_self)]
      obtain ⟨rest, rfl⟩ := hprefix
      rw [idxOf_append_of_mem (mem_columnsOf.mpr ⟨mem_cons_self, hk⟩), idxOf_columnsOf_cons hk]
  | push =>
      rw [chainColumn, if_pos (hbelow mem_cons_self), getElem?_eq_getElem hlt, Option.getD_some,
        hapart.nodup_columns.idxOf_getElem]

/-- The columns of a level stay at their positions. -/
theorem Leveled.idxOf_level (h : p.Leveled leftmost left below levels) (hp : p.Ordered p.order)
    (hleft : left ∈ p.order) (hbelow : below ⊆ joins) {right : NodeId}
    (hfirst : levels.inputs ++ [right] <+: inputs) : ∀ c ∈ p.columnsOf [left, right],
      columns.idxOf (chainColumn joins columns c) = (p.columnsOf [left, right]).idxOf c := by
  have hright : right ∉ joins :=
    hapart.not_mem _ (mem_cons_of_mem _ (hfirst.subset (by simp)))
  have hinputs : (leftmost :: levels.inputs ++ [right]).Nodup :=
    hapart.nodup.sublist (hfirst.sublist.cons_cons leftmost)
  have hnot : right ∉ leftmost :: levels.inputs := fun hmem =>
    (nodup_append.mp hinputs).2.2 right hmem right (mem_singleton_self _) rfl
  have hne : right ≠ left := by
    rintro rfl
    cases h with
    | none => exact hnot mem_cons_self
    | push => exact hright (hbelow mem_cons_self)
  rintro ⟨source, k⟩ hc
  obtain ⟨hsource, hk⟩ := mem_columnsOf.mp hc
  rcases mem_cons.mp hsource with rfl | hsource
  · rw [h.idxOf_chainColumn hapart hp hleft hbelow ((prefix_append _ _).trans hfirst) hk,
      idxOf_columnsOf_cons hk]
  · cases mem_singleton.mp hsource
    obtain ⟨rest, hrest⟩ := hapart.prefix_columns hfirst
    rw [chainColumn, if_neg hright, ← hrest, ← cons_append,
      idxOf_append_of_mem (mem_columnsOf.mpr ⟨mem_append_right _ (mem_singleton_self _), hk⟩),
      idxOf_columnsOf_concat hnot hk, ← h.columnCount_eq hp hleft]
    have hlast : (p.columnsOf ([left] ++ [source])).idxOf ⟨source, k⟩ =
        (p.columnsOf [left]).length + k := idxOf_columnsOf_concat (by simpa using hne) hk
    rw [show [left, source] = [left] ++ [source] from rfl, hlast, length_columnsOf]
    simp

variable (hp : p.WellFormed)
include hp

/-- The condition of a level refers to columns of the level, which stay at their positions. -/
theorem Leveled.idxOf_condition (h : p.Leveled leftmost left below levels) (htop : top ∈ p.order)
    (hbelow : below ⊆ joins) {right : NodeId} (hfirst : levels.inputs ++ [right] <+: inputs)
    {j : Join} (hop : p.op top = .join j) (hinputs : p.inputs top = [left, right]) :
    ∀ c ∈ j.condition.columns, c ∈ p.columnsOf [left, right] ∧
      columns.idxOf (chainColumn joins columns c) = (p.columnsOf [left, right]).idxOf c := by
  intro c hc
  have hcolumn : c ∈ (p.op top).columns := by
    rw [hop]
    exact Operator.mem_columns.mpr ⟨_, mem_singleton_self _, hc⟩
  have hmem : c ∈ p.columnsOf [left, right] := by
    have hread := hp.reads_of_mem htop hcolumn
    rw [reads_of_join (by rw [hop]; rfl), hinputs] at hread
    exact mem_columnsOf.mpr hread
  have hleft : left ∈ p.order := hp.arranged.mem_of_input htop (by simp [hinputs])
  exact ⟨hmem, h.idxOf_level hapart hp.arranged.toOrdered hleft hbelow hfirst c hmem⟩

/-- The conditions of the inner joins of a chain are about the columns of the chain. -/
theorem Leveled.conjuncts_lt (h : p.Leveled leftmost top below levels) (htop : top ∈ p.order)
    (hbelow : below ⊆ joins) (hfirst : levels.inputs <+: inputs) :
    ∀ e ∈ levels.conjuncts, ∀ c ∈ e.columns,
      columns.idxOf (chainColumn joins columns c) < p.columnCount top := by
  induction h with
  | none => exact nofun
  | @push top left right j below levels hop hinputs hchain ih =>
      have hleft : left ∈ p.order := hp.arranged.mem_of_input htop (by simp [hinputs])
      have hbelow : below ⊆ joins := fun x hx => hbelow (mem_cons_of_mem _ hx)
      have hcount : p.columnCount top = p.columnCount left + p.columnCount right := by
        rw [hp.arranged.columnCount_eq htop, hop, hinputs]
        simp [Operator.layout, Layout.width]
      have hlower := ih hleft hbelow ((prefix_append _ _).trans hfirst)
      have hcondition := hchain.idxOf_condition hapart hp htop hbelow hfirst hop hinputs
      intro e he c hc
      rcases mem_append.mp he with he | he
      · exact Nat.lt_of_lt_of_le (hlower e he c hc) (hcount ▸ Nat.le_add_right _ _)
      · cases hkind : j.kind with
        | inner =>
            rw [hkind] at he
            have hc : c ∈ j.condition.columns := Expr.columns_subset_of_mem_conjuncts he hc
            obtain ⟨hmem, hidx⟩ := hcondition c hc
            have hlt := idxOf_lt_length_iff.mpr hmem
            rw [length_columnsOf] at hlt
            rw [hidx, hcount]
            simpa using hlt
        | left =>
            rw [hkind] at he
            cases he

end

end Plan

end QueryPlan
