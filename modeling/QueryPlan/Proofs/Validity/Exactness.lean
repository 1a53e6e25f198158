import QueryPlan.Proofs.Success.Validity
import Mathlib.Algebra.Order.BigOperators.Group.List
import Mathlib.Data.List.Perm.Subperm
/-!
# QueryPlan.Proofs.Validity.Exactness

**What the check of a plan decides.** The walk along inputs is a loop over the nodes it has seen and
the nodes it has yet to visit (`Plan.walkTurn`). Each turn visits one of these, and an expanded node
puts its inputs there only once, so on every plan, and on cyclic ones too, the loop stops after a
turn for the root and one for each input of a node that it has seen (`walk_stops`).

The nodes it has seen are then those that can be reached, and an expression passes exactly if no
positional reference and no column of another node occurs in it, at any depth (`Expr.Occurs`).
-/

namespace QueryPlan

open List

namespace Expr

/-- A leaf occurs in an expression, itself or within an argument. -/
inductive Occurs (l : Leaf) : Expr → Prop
  | leaf : Occurs l (.leaf l)
  | app {head : Head} {args : List Expr} {e : Expr} :
      e ∈ args → Occurs l e → Occurs l (.app head args)

theorem mem_leaves_iff {l : Leaf} {e : Expr} : l ∈ e.leaves ↔ e.Occurs l := by
  induction e using ind with
  | leaf k =>
      rw [leaves, mem_singleton]
      constructor
      · rintro rfl
        exact .leaf
      · rintro ⟨⟩
        rfl
  | app head args ih =>
      rw [leaves_app, mem_flatMap]
      constructor
      · rintro ⟨e, he, hl⟩
        exact .app he ((ih e he).mp hl)
      · rintro (_ | ⟨he, hl⟩)
        exact ⟨_, he, (ih _ he).mpr hl⟩

/-- An expression is bound if no positional reference occurs in it. -/
theorem hasPositional_eq_false_iff_occurs {e : Expr} :
    e.hasPositional = false ↔ ∀ index, ¬ e.Occurs (.positional index) := by
  rw [hasPositional_eq_false_iff]
  constructor
  · exact fun h index hoccurs => Bool.noConfusion (h _ (mem_leaves_iff.mpr hoccurs))
  · intro h l hl
    cases l with
    | positional index => exact absurd (mem_leaves_iff.mp hl) (h index)
    | _ => rfl

/-- The columns of an expression are those that occur in it. -/
theorem mem_columns_iff_occurs {c : ColumnRef} {e : Expr} :
    c ∈ e.columns ↔ e.Occurs (.column c) := by
  rw [mem_columns_iff, mem_leaves_iff]

end Expr

namespace Plan

variable {p : Plan} {root : NodeId}

/-! ### The walk -/

/-- One turn of the walk. The state is what has been seen and what is to be visited. -/
def walkTurn (p : Plan) : List NodeId × List NodeId → List NodeId × List NodeId
  | (seen, []) => (seen, [])
  | (seen, id :: rest) =>
    if seen.contains id then (seen, rest) else (id :: seen, p.inputs id ++ rest)

/-- The number of inputs of some nodes. -/
def inputTotal (p : Plan) (nodes : List NodeId) : Nat := (nodes.map fun n => (p.inputs n).length).sum

/-- The number of inputs in the arena. -/
def edgeCount (p : Plan) : Nat := p.inputTotal ((range p.arena.size).map .mk)

/-- Nodes that are listed once have no more inputs than the arena. -/
theorem inputTotal_le_edgeCount {nodes : List NodeId} (h : nodes.Nodup) :
    p.inputTotal nodes ≤ p.edgeCount := by
  -- Only the nodes of the arena have inputs.
  have hinside : p.inputTotal nodes =
      p.inputTotal (nodes.filter fun n => n.index < p.arena.size) := by
    clear h
    induction nodes with
    | nil => rfl
    | cons n nodes ih =>
        by_cases hn : n.index < p.arena.size
        · simp_all [inputTotal]
        · have hnone := p.inputs_of_size_le (Nat.le_of_not_lt hn)
          simp_all [inputTotal]
  have hsub : nodes.filter (fun n => n.index < p.arena.size) <+~
      (range p.arena.size).map NodeId.mk := by
    refine (h.filter _).subperm fun n hn => ?_
    have hn := of_decide_eq_true (mem_filter.mp hn).2
    exact mem_map.mpr ⟨n.index, mem_range.mpr hn, rfl⟩
  obtain ⟨l, hperm, hsublist⟩ := hsub
  calc p.inputTotal nodes
      _ = p.inputTotal l := hinside.trans (hperm.map _).sum_eq.symm
      _ ≤ p.edgeCount := (hsublist.map _).sum_le_sum fun _ _ => Nat.zero_le _

/-- Each node is seen once. -/
theorem nodup_reachFrom {seen todo : List NodeId} (h : seen.Nodup) :
    (p.reachFrom seen todo).Nodup := by
  fun_induction reachFrom p seen todo with
  | case1 => exact h
  | case2 seen id rest hold ih => exact ih h
  | case3 seen id rest hnew ih =>
      exact ih (nodup_cons.mpr ⟨fun hold => hnew (contains_iff_mem.mpr hold), h⟩)

/-- The loop stops with nothing left to visit. It takes a turn for each node to visit, and one more
for each input of a node that is seen on the way. -/
theorem walk_from (seen todo : List NodeId) : ∃ turns,
    p.walkTurn^[turns] (seen, todo) = (p.reachFrom seen todo, []) ∧
      turns + p.inputTotal seen = todo.length + p.inputTotal (p.reachFrom seen todo) := by
  fun_induction reachFrom p seen todo with
  | case1 seen => exact ⟨0, rfl, rfl⟩
  | case2 seen id rest hold ih =>
      obtain ⟨turns, hstop, hturns⟩ := ih
      have hturn : p.walkTurn (seen, id :: rest) = (seen, rest) := if_pos hold
      refine ⟨turns + 1, ?_, ?_⟩
      · rw [Function.iterate_succ_apply, hturn, hstop]
      · rw [length_cons]
        omega
  | case3 seen id rest hnew ih =>
      obtain ⟨turns, hstop, hturns⟩ := ih
      have hturn : p.walkTurn (seen, id :: rest) = (id :: seen, p.inputs id ++ rest) := if_neg hnew
      have hmore : p.inputTotal (id :: seen) = (p.inputs id).length + p.inputTotal seen := by
        simp [inputTotal]
      refine ⟨turns + 1, ?_, ?_⟩
      · rw [Function.iterate_succ_apply, hturn, hstop]
      · rw [hmore, length_append] at hturns
        rw [length_cons]
        omega

/-- On every plan the walk stops, after no more turns than one and the inputs in the arena. -/
theorem walk_stops (p : Plan) (root : NodeId) : ∃ turns, turns ≤ p.edgeCount + 1 ∧
    p.walkTurn^[turns] ([], [root]) = (p.reachable root, []) := by
  obtain ⟨turns, hstop, hturns⟩ := p.walk_from [] [root]
  have htotal : p.inputTotal (p.reachable root) ≤ p.edgeCount :=
    inputTotal_le_edgeCount (nodup_reachFrom nodup_nil)
  have hnone : p.inputTotal [] = 0 := rfl
  refine ⟨turns, ?_, hstop⟩
  rw [hnone, length_singleton] at hturns
  unfold reachable at htotal
  omega

/-- Two filters that feed each other, and a sort of one of them. -/
def feedback : Plan :=
  { arena := #[.make 0 [⟨1⟩] (.filter ⟨.bool true⟩), .make 1 [⟨0⟩] (.filter ⟨.bool true⟩),
      .make 2 [⟨0⟩] (.sort ⟨[], some 1, 0, false⟩)]
    order := (range 3).map NodeId.mk }

/-- The walk leaves the loop when it comes back to the first filter. -/
example : feedback.walkTurn^[4] ([], [⟨2⟩]) = ([⟨1⟩, ⟨0⟩, ⟨2⟩], []) := by decide

/-! ### The check -/

/-- A plan is consistent below its root: no live node reads the root, and what can be reached from
the root is bound to columns of what can be reached from it. -/
structure Consistent (p : Plan) (root : NodeId) : Prop where
  unread : ∀ n ∈ p.order, root ∉ p.inputs n
  bound : ∀ n, p.Reaches root n → ∀ e ∈ (p.op n).exprs, ∀ index, ¬ e.Occurs (.positional index)
  closed : ∀ n, p.Reaches root n → ∀ e ∈ (p.op n).exprs, ∀ c,
    e.Occurs (.column c) → p.Reaches root c.source

theorem validate_eq_ok_iff_consistent (hroot : p.root? = some root) :
    p.validate = .ok () ↔ p.Consistent root := by
  rw [validate_eq_ok_iff hroot, useCount_eq_zero_iff]
  simp only [Expr.hasPositional_eq_false_iff_occurs, Operator.columns, mem_flatMap,
    Expr.mem_columns_iff_occurs]
  constructor
  · rintro ⟨hunread, hreached⟩
    exact ⟨hunread, fun n hn => (hreached n hn).1,
      fun n hn e he c hc => (hreached n hn).2 c ⟨e, he, hc⟩⟩
  · rintro ⟨hunread, hbound, hclosed⟩
    refine ⟨hunread, fun n hn => ⟨hbound n hn, ?_⟩⟩
    rintro c ⟨e, he, hc⟩
    exact hclosed n hn e he c hc

/-- **The check decides consistency.** On every plan, cyclic or not, the walk from the root stops,
and the check passes exactly if nothing is live or the plan is consistent below its root. -/
theorem validity_exact (p : Plan) :
    (∀ root, ∃ turns, turns ≤ p.edgeCount + 1 ∧
      p.walkTurn^[turns] ([], [root]) = (p.reachable root, [])) ∧
    (p.validate = .ok () ↔
      p.order = [] ∨ ∃ root, p.root? = some root ∧ p.Consistent root) := by
  refine ⟨p.walk_stops, ?_⟩
  cases hroot : p.root? with
  | none =>
      have hnone : p.validate = .ok () := by
        unfold validate
        rw [hroot]
      exact ⟨fun _ => .inl (getLast?_eq_none_iff.mp hroot), fun _ => hnone⟩
  | some root =>
      have hlive : p.order ≠ [] := ne_nil_of_mem (mem_of_getLast? hroot)
      rw [validate_eq_ok_iff_consistent hroot]
      constructor
      · exact fun h => .inr ⟨root, rfl, h⟩
      · rintro (hnil | ⟨_, ⟨⟩, h⟩)
        · exact absurd hnil hlive
        · exact h

end Plan

end QueryPlan
