import QueryPlan.Proofs.Meaning.Selection
import QueryPlan.Proofs.Separation.Remaining
/-!
# QueryPlan.Proofs.Meaning.Grouping

**A compound that groups.** Its first sources are what an aggregate would group, and the keys and
calls of the aggregate stand among its targets (`Compound.GroupsAs`). So its groups are those of the
aggregate, and each of these targets has the value of a column of the aggregate
(`GroupsAs.target_eq`).

Any other source is taken from the first row of a group. Without window functions an expression is
about one row (`Meaning.eval_mapLeaves`), so it has the same value at every row of a group if it is
computed from a key. Hence the compound does what a projection over the aggregate does that computes
from the first key alone (`GroupsAs.compounded_eq_projected`).
-/

namespace QueryPlan

open List

/-! ### Expressions without window functions -/

theorem Expr.hasWindow_app_eq_false {head : Head} {args : List Expr}
    (h : (app head args).hasWindow = false) :
    (∀ w, head ≠ .window w) ∧ ∀ e ∈ args, e.hasWindow = false := by
  constructor
  · rintro w rfl
    cases h
  · intro e he
    by_contra hwindow
    rw [hasWindow_of_mem he (by simpa using hwindow)] at h
    cases h

namespace Meaning

variable {V : Type} {M : Meaning V}

theorem applied_of_ne_window {head : Head} (h : ∀ w, head ≠ .window w) (count : Nat)
    (args : Nat → List V) (i : Nat) : M.applied head count args i = M.apply head (args i) := by
  cases head with
  | window w => exact absurd rfl (h w)
  | _ => rfl

/-- Without window functions an expression is about one row. With others in place of its leaves it
has the value that it has where the leaves have their values. -/
theorem eval_mapLeaves {envs : List (Env V)} {env : Env V} {i : Nat} {f : Leaf → Expr} {e : Expr}
    (hwindow : e.hasWindow = false)
    (hleaves : ∀ l ∈ e.leaves, M.eval envs (f l) i = M.leafValue env l) :
    M.eval envs (e.mapLeaves f) i = M.eval [env] e 0 := by
  induction e using Expr.ind with
  | leaf l => exact hleaves l (mem_singleton_self l)
  | app head args ih =>
      obtain ⟨hhead, hargs⟩ := Expr.hasWindow_app_eq_false hwindow
      rw [Expr.mapLeaves_app, eval_app, eval_app, applied_of_ne_window hhead,
        applied_of_ne_window hhead, map_map]
      refine congrArg (M.apply head) (map_congr_left fun e he => ih e he (hargs e he) ?_)
      intro l hl
      exact hleaves l (Expr.leaves_app head args ▸ mem_flatMap.mpr ⟨e, he, hl⟩)

theorem eval_of_hasWindow_eq_false {envs : List (Env V)} {env : Env V} {i : Nat} {e : Expr}
    (hwindow : e.hasWindow = false) (henv : envs[i]? = some env) :
    M.eval envs e i = M.eval [env] e 0 := by
  refine (congrArg (M.eval envs · i) e.mapLeaves_leaf.symm).trans
    (eval_mapLeaves hwindow fun l _ => ?_)
  rw [eval, henv]
  rfl

/-! ### Rows of values -/

theorem projected_eq (exprs : List Expr) (envs : List (Env V)) :
    M.projected exprs envs = (range envs.length).map (M.evalAll envs exprs) :=
  map_congr_left fun i _ => (evalAll_eq envs exprs i).symm

theorem cell_evalAll {envs : List (Env V)} {exprs : List Expr} {k : Nat} {e : Expr}
    (h : exprs[k]? = some e) (i : Nat) : M.cell (M.evalAll envs exprs i) k = M.eval envs e i := by
  rw [cell, evalAll_eq, getElem?_map, h]
  rfl

/-- Values of more expressions begin with the same values. -/
theorem cell_evalAll_of_prefix {envs : List (Env V)} {exprs exprs' : List Expr} {k : Nat}
    (h : exprs <+: exprs') (hk : k < exprs.length) (i : Nat) :
    M.cell (M.evalAll envs exprs' i) k = M.cell (M.evalAll envs exprs i) k := by
  have hget : exprs[k]? = some exprs[k] := getElem?_eq_getElem hk
  rw [cell_evalAll hget, cell_evalAll ((prefix_iff_getElem?.mp h k hk).trans rfl)]

/-- The rows that pass the filter of a compound. -/
def passed (M : Meaning V) (scope : List ColumnRef) (filter : Option Expr) (rows : Rows V) :
    Rows V :=
  match filter with
  | none => rows
  | some condition => M.filtered scope condition rows

theorem sources_eq (scope : List ColumnRef) (c : Compound) (rows : Rows V) :
    M.sources scope c rows =
      M.projected c.sources ((M.passed scope c.filter rows).map (M.env scope)) := by
  unfold sources passed
  cases c.filter <;> rfl

/-- The row of an aggregate for a group. -/
def grouped (M : Meaning V) (a : Aggregate) (group : List V × Rows V) : List V :=
  M.fit a.groupCount group.1 ++ a.calls.map (M.called group.2)

theorem cell_grouped_key {a : Aggregate} {k : Nat} (hk : k < a.groupCount)
    (group : List V × Rows V) : M.cell (M.grouped a group) k = M.cell group.1 k := by
  have hlt : k < (M.fit a.groupCount group.1).length := by rwa [length_fit]
  rw [cell, grouped, getElem?_append_left hlt, fit, getElem?_map, getElem?_range hk]
  rfl

theorem cell_grouped_call {a : Aggregate} {k : Nat} {call : AggregateCall}
    (hk : a.calls[k]? = some call) (group : List V × Rows V) :
    M.cell (M.grouped a group) (a.groupCount + k) = M.called group.2 call := by
  have hle : (M.fit a.groupCount group.1).length ≤ a.groupCount + k := by
    rw [length_fit]
    exact Nat.le_add_right _ _
  rw [cell, grouped, getElem?_append_right hle, length_fit, Nat.add_sub_cancel_left, getElem?_map,
    hk]
  rfl

theorem length_grouped (a : Aggregate) (group : List V × Rows V) :
    (M.grouped a group).length = a.width := by
  rw [grouped, length_append, length_fit, length_map, Aggregate.width]

end Meaning

/-! ### The targets of an aggregate -/

/-- The targets for the columns of an aggregate whose keys are supplied behind some sources. -/
def Aggregate.targets (a : Aggregate) (sources : Nat) : List CompoundTarget :=
  ((range a.groupCount).map fun k => .source (sources + k)) ++ (range a.calls.length).map .call

theorem Aggregate.targets_eq_some {a : Aggregate} {sources k : Nat} {t : CompoundTarget}
    (h : (a.targets sources)[k]? = some t) : (k < a.groupCount ∧ t = .source (sources + k)) ∨
      ∃ i call, k = a.groupCount + i ∧ t = .call i ∧ a.calls[i]? = some call := by
  have hlength : ((range a.groupCount).map fun k =>
      CompoundTarget.source (sources + k)).length = a.groupCount := by simp
  by_cases hk : k < a.groupCount
  · rw [targets, getElem?_append_left (hlength.symm ▸ hk), getElem?_map, getElem?_range hk] at h
    exact .inl ⟨hk, (Option.some.inj h).symm⟩
  · obtain ⟨i, rfl⟩ := Nat.exists_eq_add_of_le (Nat.le_of_not_lt hk)
    rw [targets, getElem?_append_right (hlength.symm ▸ Nat.le_add_right _ _), hlength,
      Nat.add_sub_cancel_left, getElem?_map, Option.map_eq_some_iff] at h
    obtain ⟨j, hj, rfl⟩ := h
    obtain ⟨hlt, hget⟩ := List.getElem?_eq_some_iff.mp hj
    rw [getElem_range] at hget
    subst hget
    rw [length_range] at hlt
    exact .inr ⟨i, a.calls[i], rfl, rfl, getElem?_eq_getElem hlt⟩

namespace Compound

/-- A compound that groups some of its sources, and supplies the keys behind them. -/
structure GroupsAs (c : Compound) (first : List Expr) (a : Aggregate) : Prop where
  isAggregate : c.isAggregate = true
  sources_begin : first ++ (range a.groupCount).map (fun k => .supplied (k + 1)) <+: c.sources
  calls_eq : c.calls = a.calls
  groupCount_eq : c.groupCount = a.groupCount
  groupCount_le : a.groupCount ≤ first.length
  operand_lt : ∀ call ∈ a.calls, ∀ k ∈ call.operands, k < first.length

/-- A target has the values of an expression over the aggregate: it is the target of a column, or
the expression is computed from the first key alone and the target is a source of its own. -/
inductive Answers (c : Compound) (first : List Expr) (a : Aggregate) (id : NodeId) :
    Expr → CompoundTarget → Prop
  | column {k : Nat} {t : CompoundTarget} : (a.targets first.length)[k]? = some t →
    Answers c first a id (.column ⟨id, k⟩) t
  | computed {e : Expr} {i : Nat} : e.isColumn = false → e.hasWindow = false →
    0 < a.groupCount → (∀ l ∈ e.leaves, l = .column ⟨id, 0⟩) →
    c.sources[i]? = some (e.inline id first) → Answers c first a id e (.source i)

namespace GroupsAs

open Meaning

variable {V : Type} {M : Meaning V} {c : Compound} {first : List Expr} {a : Aggregate}
  {id : NodeId} (h : c.GroupsAs first a) {envs : List (Env V)} {key : List V} {places : List Nat}
include h

theorem first_begins : first <+: c.sources := (prefix_append first _).trans h.sources_begin

/-- The target of a column of the aggregate has the value of the column. -/
theorem target_eq {k : Nat} {t : CompoundTarget} (ht : (a.targets first.length)[k]? = some t) :
    M.target c key (places.map (M.evalAll envs c.sources)) t =
      M.cell (M.grouped a (key, places.map (M.evalAll envs first))) k := by
  rcases Aggregate.targets_eq_some ht with ⟨hk, rfl⟩ | ⟨i, call, rfl, rfl, hcall⟩
  · have hsource : c.sources[first.length + k]? = some (.supplied (k + 1)) := by
      refine (prefix_iff_getElem?.mp h.sources_begin (first.length + k) (by simpa using hk)).trans ?_
      simp
    rw [cell_grouped_key hk, Meaning.target, hsource]
    rfl
  · have hmem : call ∈ a.calls := mem_of_getElem? hcall
    have hcalled : M.called (places.map (M.evalAll envs c.sources)) call =
        M.called (places.map (M.evalAll envs first)) call := by
      have hmoved := called_map (c := call) (f := M.evalAll envs first)
        (g := M.evalAll envs c.sources) (ψ := fun k => k) fun i (_ : i ∈ places) k hk =>
          cell_evalAll_of_prefix h.first_begins (h.operand_lt call hmem k hk) i
      rwa [map_id'] at hmoved
    rw [cell_grouped_call hcall, Meaning.target, h.calls_eq, hcall]
    exact hcalled

/-- What is computed from the first key has the same value at the first row of a group as over the
aggregate. -/
theorem target_computed {e : Expr} {i : Nat} {env : Env V} (hcolumn : e.isColumn = false)
    (hwindow : e.hasWindow = false) (hcount : 0 < a.groupCount)
    (hleaves : ∀ l ∈ e.leaves, l = .column ⟨id, 0⟩)
    (hsource : c.sources[i]? = some (e.inline id first)) (hplaces : places ≠ [])
    (hkey : ∀ x ∈ places, M.fit a.groupCount (M.evalAll envs first x) = key)
    (henv : env.column ⟨id, 0⟩ = M.cell key 0) :
    M.target c key (places.map (M.evalAll envs c.sources)) (.source i) = M.eval [env] e 0 := by
  obtain ⟨x, rest, rfl⟩ := exists_cons_of_ne_nil hplaces
  have hne : keyOf (e.inline id first) = none := by
    cases e with
    | leaf l =>
        obtain rfl := hleaves l (mem_singleton_self l)
        cases hcolumn
    | app head args =>
        rw [Expr.inline_app]
        rfl
  rw [Meaning.target, hsource, Option.bind_some, hne, map_cons, headD_cons, cell_evalAll hsource]
  refine eval_mapLeaves hwindow fun l hl => ?_
  obtain rfl := hleaves l hl
  have hfirst : 0 < first.length := Nat.lt_of_lt_of_le hcount h.groupCount_le
  have hget : first[0]? = some first[0] := getElem?_eq_getElem hfirst
  have hcell : M.cell key 0 = M.cell (M.evalAll envs first x) 0 := by
    rw [← hkey x mem_cons_self]
    simp [cell, fit, hcount]
  rw [leafValue, henv, hcell, cell_evalAll hget, Expr.inlineLeaf, if_pos rfl, hget]
  rfl

variable [DecidableEq V]

/-- The groups of the compound are those of the aggregate, over the same rows. -/
theorem exists_parts (scope : List ColumnRef) (rows : Rows V) {envs : List (Env V)}
    (henvs : envs = (M.passed scope c.filter rows).map (M.env scope)) :
    ∃ parts : List (List V × List Nat),
      (0 < a.groupCount → ∀ part ∈ parts, part.2 ≠ [] ∧
        ∀ x ∈ part.2, M.fit a.groupCount (M.evalAll envs first x) = part.1) ∧
      (M.groups a.groupCount (M.projected first envs)).map (M.grouped a) =
        parts.map (fun part => M.grouped a (part.1, part.2.map (M.evalAll envs first))) ∧
      M.compounded scope c rows = parts.map fun part =>
        c.targets.map (M.target c part.1 (part.2.map (M.evalAll envs c.sources))) := by
  have hkeys : ∀ x ∈ range envs.length, M.fit a.groupCount (M.evalAll envs c.sources x) =
      M.fit a.groupCount (M.evalAll envs first x) := fun x _ =>
    map_congr_left fun k hk => cell_evalAll_of_prefix h.first_begins
      (Nat.lt_of_lt_of_le (mem_range.mp hk) h.groupCount_le) x
  obtain ⟨parts, -, hparts, hfirst, hsources⟩ := exists_groups hkeys
  refine ⟨parts, fun hcount => hparts (Nat.ne_of_gt hcount), ?_, ?_⟩
  · rw [projected_eq, hfirst, map_map]
    rfl
  · rw [compounded, sources_eq, ← henvs, if_pos h.isAggregate, h.groupCount_eq, projected_eq,
      hsources, map_map]
    rfl

variable (scope : List ColumnRef) (rows : Rows V)

/-- With the targets of the aggregate, the compound is the aggregate over its first sources. -/
theorem compounded_eq (htargets : c.targets = a.targets first.length) :
    M.compounded scope c rows =
      (M.groups a.groupCount (M.projected first
        ((M.passed scope c.filter rows).map (M.env scope)))).map (M.grouped a) := by
  obtain ⟨parts, -, hfirst, hcompounded⟩ := h.exists_parts (M := M) scope rows rfl
  rw [hfirst, hcompounded]
  refine map_congr_left fun part _ => ?_
  have hlength : c.targets.length = a.width := by
    simp [htargets, Aggregate.targets, Aggregate.width]
  refine ext_getElem (by rw [length_map, length_grouped, hlength]) fun k hk hk' => ?_
  rw [length_map] at hk
  have ht : (a.targets first.length)[k]? = some c.targets[k] := by
    rw [← htargets]
    exact getElem?_eq_getElem hk
  rw [getElem_map, h.target_eq ht, cell, getElem?_eq_getElem hk']
  rfl

/-- With targets for its expressions, the compound is the projection over the aggregate. -/
theorem compounded_eq_projected {exprs : List Expr}
    (htargets : Forall₂ (c.Answers first a id) exprs c.targets) :
    M.compounded scope c rows = M.projected exprs
      (((M.groups a.groupCount (M.projected first
        ((M.passed scope c.filter rows).map (M.env scope)))).map (M.grouped a)).map
          (M.env (ColumnRef.range id a.width))) := by
  obtain ⟨parts, hparts, hfirst, hcompounded⟩ := h.exists_parts (M := M) scope rows rfl
  rw [hfirst, hcompounded, map_map]
  refine ext_getElem (by simp [projected]) fun i hi hi' => ?_
  rw [length_map] at hi
  have hpart : parts[i] ∈ parts := getElem_mem hi
  simp only [projected, getElem_map, getElem_range]
  rw [← forall₂_eq_eq_eq, forall₂_map_left_iff, forall₂_map_right_iff]
  refine htargets.flip.imp fun t e hanswers => ?_
  cases hanswers with
  | @column k t ht =>
      have hk : k < a.width := by
        simpa [Aggregate.targets, Aggregate.width] using (List.getElem?_eq_some_iff.mp ht).1
      rw [h.target_eq ht]
      simp [eval, hi, leafValue, env, ColumnRef.idxOf_range hk]
  | computed hcolumn hwindow hcount hleaves hsource =>
      obtain ⟨hplaces, hkey⟩ := hparts hcount _ hpart
      have hk : 0 < a.width := Nat.lt_of_lt_of_le hcount (Nat.le_add_right _ _)
      rw [eval_of_hasWindow_eq_false hwindow (by rw [getElem?_map, getElem?_eq_getElem hi]; rfl)]
      refine h.target_computed hcolumn hwindow hcount hleaves hsource hplaces hkey ?_
      exact (congrArg (M.cell _) (ColumnRef.idxOf_range hk)).trans (cell_grouped_key hcount _)

end GroupsAs

end Compound

end QueryPlan
