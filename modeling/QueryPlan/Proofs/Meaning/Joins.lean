import QueryPlan.Proofs.Flattening.Levels
import QueryPlan.Proofs.Meaning.Rows
/-!
# QueryPlan.Proofs.Meaning.Joins

**What a chain of joins means.** A condition on the rows of the left input may wait until after
the join, since it only looks at a part of the joined row that stays (`Meaning.joined_filter_left`,
`Meaning.joined_filter_inner`). So the conditions of the inner joins of a chain may all wait until
the end, past the left joins above them, and every join of a chain has the rows of the flattened
inputs for which the conditions up to it are true (`Leveled.rows_eq`).
-/

namespace QueryPlan

open List

/-- The place behind a part of a list. -/
theorem getElem?_of_prefix_concat {α : Type} {as bs : List α} {a : α} (h : as ++ [a] <+: bs) :
    bs[as.length]? = some a := by
  obtain ⟨rest, rfl⟩ := h
  simp

namespace Meaning

variable {V : Type} {M : Meaning V} {width : Nat} {left right : Rows V}
  {before after isMatch : List V → Bool}

/-- Rows that are sorted out before they are extended may be sorted out afterwards. -/
theorem flatMap_filter_eq {α : Type} {as : List α} {keep : α → Bool} {f : α → Rows V}
    (h : ∀ a ∈ as, ∀ row ∈ f a, after row = keep a) :
    (as.filter keep).flatMap f = (as.flatMap f).filter after := by
  induction as with
  | nil => rfl
  | cons a as ih =>
      obtain ⟨ha, has⟩ := forall_mem_cons.mp h
      rw [flatMap_cons, filter_append, ← ih has]
      cases hkeep : keep a with
      | true =>
          rw [filter_cons_of_pos hkeep, flatMap_cons,
            filter_eq_self.mpr fun row hrow => (ha row hrow).trans hkeep]
      | false =>
          have hnone : (f a).filter after = [] := filter_eq_nil_iff.mpr fun row hrow => by
            simp [ha row hrow, hkeep]
          rw [filter_cons_of_neg (by simp [hkeep]), hnone, nil_append]

/-- A condition on the left rows may wait until after a left join. -/
theorem joined_filter_left (h : ∀ a ∈ left, ∀ b, after (a ++ b) = before a) :
    M.joined .left width isMatch (left.filter before) right =
      (M.joined .left width isMatch left right).filter after := by
  refine flatMap_filter_eq fun a ha row hrow => ?_
  have hpair : ∀ pair ∈ (right.map fun b => a ++ b).filter isMatch, after pair = before a := by
    intro pair hpair
    obtain ⟨b, -, rfl⟩ := mem_map.mp (mem_filter.mp hpair).1
    exact h a ha b
  dsimp only at hrow
  split at hrow
  · rw [mem_singleton.mp hrow]
    exact h a ha _
  · exact hpair row hrow

/-- The condition of an inner join may wait until after the join. -/
theorem joined_inner (width : Nat) (isMatch : List V → Bool) (left right : Rows V) :
    M.joined .inner width isMatch left right =
      (M.joined .inner width (fun _ => true) left right).filter isMatch := by
  simp only [joined, filter_true, filter_flatMap]

/-- A condition on the left rows may wait until after an inner join, and so may the condition of
the join. -/
theorem joined_filter_inner (h : ∀ a ∈ left, ∀ b, after (a ++ b) = before a) :
    M.joined .inner width isMatch (left.filter before) right =
      (M.joined .inner width (fun _ => true) left right).filter
        fun row => after row && isMatch row := by
  have hkeep : M.joined .inner width isMatch (left.filter before) right =
      (M.joined .inner width isMatch left right).filter after := by
    refine flatMap_filter_eq fun a ha row hrow => ?_
    obtain ⟨b, -, rfl⟩ := mem_map.mp (mem_filter.mp hrow).1
    exact h a ha b
  rw [hkeep, joined_inner, filter_filter]

section

variable {scope : List ColumnRef} {j : LeftDeepJoin} {rows : Rows V} {level : Nat}

theorem addInput_inner (hkind : j.kinds[level]? = some .inner) :
    M.addInput scope j rows ((width, right), level) =
      M.joined .inner width (fun _ => true) rows right := by
  simp only [addInput, hkind, Option.getD_some]

theorem addInput_left (hkind : j.kinds[level]? = some .left) {e : Expr}
    (houter : j.outer[level]? = some (some e)) :
    M.addInput scope j rows ((width, right), level) =
      M.joined .left width (fun row => M.holds (M.env scope row) e) rows right := by
  simp only [addInput, hkind, houter, Option.getD_some, Option.all_some]

end

/-- A left-deep join with one more input. -/
theorem chained_concat {scope : List ColumnRef} {j : LeftDeepJoin} {first : Rows V}
    {inputs : List (Nat × Rows V)} {input : Nat × Rows V} :
    M.chained scope j first (inputs ++ [input]) =
      M.addInput scope j (M.chained scope j first inputs) (input, inputs.length) := by
  rw [chained, zipIdx_append, foldl_append, chained]
  simp

/-- A condition on columns of a part of a row is not about the rest of the row. -/
theorem holds_append {scope : List ColumnRef} {φ : ColumnRef → ColumnRef} {e : Expr}
    {a : List V} (h : ∀ c ∈ e.columns, scope.idxOf (φ c) < a.length) (b : List V) :
    M.holds ((M.env scope (a ++ b)).moved φ) e = M.holds ((M.env scope a).moved φ) e := by
  refine holds_congr rfl fun c hc => ?_
  change M.cell (a ++ b) _ = M.cell a _
  rw [cell, cell, getElem?_append_left (h c hc)]

end Meaning

namespace Plan

variable {V : Type} [DecidableEq V] {M : Meaning V} {p : Plan} {top left leftmost : NodeId}
  {joins below : List NodeId} {levels : ChainLevels} {columns : List ColumnRef}

/-! ### The rows of a chain -/

/-- A row of the flattened inputs, seen by the conditions of the chain. -/
def chainEnv (M : Meaning V) (joins : List NodeId) (columns : List ColumnRef) (row : List V) :
    Env V :=
  (M.env columns row).moved (chainColumn joins columns)

/-- Whether conditions of the chain are true for a row of the flattened inputs. -/
def chainHolds (M : Meaning V) (joins : List NodeId) (columns : List ColumnRef)
    (conjuncts : List Expr) (row : List V) : Bool :=
  conjuncts.all (M.holds (chainEnv M joins columns row))

/-- The inputs of levels with their widths. -/
def levelInputs (p : Plan) (M : Meaning V) (ids : List NodeId) : List (Nat × Rows V) :=
  ids.map fun i => (p.columnCount i, p.rows M i)

section

variable {inputs : List NodeId} {j : LeftDeepJoin}
  (hapart : p.Apart joins leftmost inputs columns) (hp : p.WellFormed)
include hapart hp

omit hapart in
/-- A row of the flattened inputs is as wide as the chain. -/
theorem Leveled.length_of_mem_chained (h : p.Leveled leftmost top below levels)
    (htop : top ∈ p.order) : ∀ a ∈ M.chained columns j (p.rows M leftmost)
      (p.levelInputs M levels.inputs), a.length = p.columnCount top := by
  intro a ha
  have hrows : ∀ i ∈ leftmost :: levels.inputs, ∀ row ∈ p.rows M i,
      row.length = p.columnCount i := fun i hi =>
    hp.arranged.length_of_mem_rows i (h.subset hp.arranged.toOrdered htop hi)
  have hwidth := Meaning.length_of_mem_chained (hrows leftmost mem_cons_self)
    (fun input hinput => by
      obtain ⟨i, hi, rfl⟩ := mem_map.mp hinput
      exact hrows i (mem_cons_of_mem _ hi)) ha
  rw [hwidth, h.columnCount_eq hp.arranged.toOrdered htop, length_columnsOf, levelInputs, map_map]
  rfl

/-- What is added to a row of the chain does not change its conditions. -/
theorem Leveled.chainHolds_append (h : p.Leveled leftmost top below levels)
    (htop : top ∈ p.order) (hbelow : below ⊆ joins) (hfirst : levels.inputs <+: inputs) :
    ∀ a ∈ M.chained columns j (p.rows M leftmost) (p.levelInputs M levels.inputs), ∀ b,
      chainHolds M joins columns levels.conjuncts (a ++ b) =
        chainHolds M joins columns levels.conjuncts a := by
  intro a ha b
  rw [Bool.eq_iff_iff, chainHolds, chainHolds, all_eq_true, all_eq_true]
  refine forall₂_congr fun e he => iff_of_eq (congrArg (· = true) ?_)
  refine Meaning.holds_append (fun c hc => ?_) b
  rw [h.length_of_mem_chained hp htop a ha]
  exact h.conjuncts_lt hapart hp htop hbelow hfirst e he c hc

/-- The topmost join of a chain has the rows of the flattened inputs for which the conditions of
the inner joins are true. -/
theorem Leveled.rows_eq (hM : M.Logical) (h : p.Leveled leftmost top below levels)
    (htop : top ∈ p.order) (hbelow : below ⊆ joins) (hfirst : levels.inputs <+: inputs)
    (hkinds : levels.kinds <+: j.kinds)
    (houter : levels.outer.map (Option.map (Expr.mapColumns (chainColumn joins columns))) <+:
      j.outer) :
    p.rows M top =
      (M.chained columns j (p.rows M leftmost) (p.levelInputs M levels.inputs)).filter
        (chainHolds M joins columns levels.conjuncts) := by
  induction h with
  | none => exact (filter_true _).symm
  | @push top left right join below levels hop hinputs hchain ih =>
      have hleft : left ∈ p.order := hp.arranged.mem_of_input htop (by simp [hinputs])
      have hbelow : below ⊆ joins := fun x hx => hbelow (mem_cons_of_mem _ hx)
      have hrest : levels.inputs <+: inputs := (prefix_append _ _).trans hfirst
      have ih := ih hleft hbelow hrest ((prefix_append _ _).trans hkinds)
        ((by rw [ChainLevels.push, map_append]; exact prefix_append _ _ : _ <+: _).trans houter)
      have hcondition := hchain.idxOf_condition hapart hp htop hbelow hfirst hop hinputs
      -- The condition of the join, on the columns of the flattened inputs.
      have hrows : p.rows M top = M.joined join.kind (p.columnCount right)
          (fun row => M.holds (chainEnv M joins columns row) join.condition)
          (p.rows M left) (p.rows M right) := by
        rw [hp.arranged.rows_eq htop, hop, reads_of_join (by rw [hop]; rfl), hinputs]
        refine congrArg (fun isMatch => M.joined join.kind _ isMatch _ _) (funext fun row => ?_)
        exact Meaning.holds_congr rfl fun c hc => congrArg (M.cell row) (hcondition c hc).2.symm
      have hwait := hchain.chainHolds_append hapart hp hleft hbelow hrest (M := M) (j := j)
      have hkind := getElem?_of_prefix_concat hkinds
      have houter := getElem?_of_prefix_concat (map_append ▸ houter)
      rw [hchain.length_kinds] at hkind
      rw [length_map, hchain.length_outer] at houter
      have hplace : (p.levelInputs M levels.inputs).length = levels.inputs.length := length_map _
      change p.rows M top = (M.chained columns j (p.rows M leftmost)
        (p.levelInputs M (levels.inputs ++ [right]))).filter _
      rw [levelInputs, map_append, map_singleton, Meaning.chained_concat, ← levelInputs, hplace]
      cases hjoin : join.kind with
      | inner =>
          rw [hjoin] at hkind
          rw [hrows, hjoin, ih, Meaning.joined_filter_inner hwait, Meaning.addInput_inner hkind]
          refine filter_congr fun row _ => ?_
          rw [hM.conjoins.holds_eq_all, chainHolds, ← all_append, chainHolds, ChainLevels.push, hjoin]
      | left =>
          rw [hjoin] at hkind houter
          rw [hrows, hjoin, ih, Meaning.joined_filter_left hwait,
            Meaning.addInput_left hkind houter]
          simp only [Meaning.holds_moved, ChainLevels.push, hjoin, append_nil]
          rfl

end

end Plan

end QueryPlan
