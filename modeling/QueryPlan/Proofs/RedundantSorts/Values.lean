import QueryPlan.Proofs.Meaning.Selection
import QueryPlan.Proofs.RedundantSorts.Traces
/-!
# QueryPlan.Proofs.RedundantSorts.Values

**Traces that meet hold equal values.** The rows of a node whose columns are traced come from rows
of its input, and those of a join from rows of each of its inputs (`Meaning.exists_parts_of_join`).
So by induction from the leaves up, columns of a node whose traces meet have the same value in every
row (`Unambiguous.cell_eq_of_meet`).
-/

namespace QueryPlan

open List

namespace Meaning

variable {V : Type} {M : Meaning V} {scope : List ColumnRef} {row : List V}

theorem cell_append_left {a b : List V} {k : Nat} (hk : k < a.length) :
    M.cell (a ++ b) k = M.cell a k := by
  rw [cell, cell, getElem?_append_left hk]

theorem cell_append_right (a b : List V) (k : Nat) :
    M.cell (a ++ b) (a.length + k) = M.cell b k := by
  rw [cell, cell, getElem?_append_right (Nat.le_add_right _ _), Nat.add_sub_cancel_left]

theorem cell_fit {width k : Nat} (hk : k < width) (row : List V) :
    M.cell (M.fit width row) k = M.cell row k :=
  cell_select (getElem?_range hk) row

theorem env_column (scope : List ColumnRef) (row : List V) (c : ColumnRef) :
    (M.env scope row).column c = M.cell row (scope.idxOf c) := rfl

/-! ### The parts of a joined row -/

/-- A part of a joined row: a row of an input, or nulls in its place. -/
def IsPart (M : Meaning V) (width : Nat) (rows : Rows V) (part : List V) : Prop :=
  part ∈ rows ∨ part = replicate width M.null

theorem IsPart.length_eq {width : Nat} {rows : Rows V} {part : List V}
    (h : M.IsPart width rows part) (hrows : ∀ row ∈ rows, row.length = width) :
    part.length = width := by
  rcases h with h | rfl
  · exact hrows part h
  · exact length_replicate

theorem exists_parts_of_mem_joined {kind : JoinKind} {width : Nat} {isMatch : List V → Bool}
    {left right : Rows V} (h : row ∈ M.joined kind width isMatch left right) :
    ∃ a ∈ left, ∃ b, M.IsPart width right b ∧ row = a ++ b := by
  obtain ⟨a, ha, h⟩ := mem_flatMap.mp h
  have hpair : ∀ pair ∈ (right.map fun b => a ++ b).filter isMatch,
      ∃ b, M.IsPart width right b ∧ pair = a ++ b := by
    intro pair hpair
    obtain ⟨b, hb, rfl⟩ := mem_map.mp (mem_filter.mp hpair).1
    exact ⟨b, .inl hb, rfl⟩
  refine ⟨a, ha, ?_⟩
  cases kind with
  | inner => exact hpair row h
  | left =>
      dsimp only at h
      split at h
      · exact ⟨_, .inr rfl, mem_singleton.mp h⟩
      · exact hpair row h

theorem exists_parts_of_mem_chained {j : LeftDeepJoin} {rows : Rows V}
    {inputs : List (Nat × Rows V)} (h : row ∈ M.chained scope j rows inputs) :
    ∃ a ∈ rows, ∃ parts, Forall₂ (fun part input => M.IsPart input.1 input.2 part) parts inputs ∧
      row = a ++ parts.flatten := by
  unfold chained at h
  generalize 0 = level at h
  induction inputs generalizing rows level with
  | nil => exact ⟨row, h, [], .nil, (append_nil row).symm⟩
  | cons input inputs ih =>
      rw [zipIdx_cons, foldl_cons] at h
      obtain ⟨row', hrow', parts, hparts, rfl⟩ := ih (level + 1) h
      have hjoined : ∃ kind isMatch, row' ∈ M.joined kind input.1 isMatch rows input.2 := by
        unfold addInput at hrow'
        dsimp only at hrow'
        split at hrow' <;> exact ⟨_, _, hrow'⟩
      obtain ⟨kind, isMatch, hjoined⟩ := hjoined
      obtain ⟨a, ha, b, hb, rfl⟩ := exists_parts_of_mem_joined hjoined
      exact ⟨a, ha, b :: parts, .cons hb hparts, by rw [flatten_cons, append_assoc]⟩

/-- A row of a join consists of a part for each input. -/
theorem exists_parts_of_join [DecidableEq V] {op : Operator} (hjoin : op.isJoin = true)
    {ids : List NodeId} (harity : op.arity.admits ids.length = true) {count : NodeId → Nat}
    {rowsOf : NodeId → Rows V} (h : row ∈ M.node op scope (ids.map count) (ids.map rowsOf)) :
    ∃ parts, Forall₂ (fun part i => M.IsPart (count i) (rowsOf i) part) parts ids ∧
      row = parts.flatten := by
  cases op with
  | join j =>
      obtain ⟨left, right, rfl⟩ : ∃ left right, ids = [left, right] := by
        simpa [Operator.arity, Arity.admits, length_eq_two] using harity
      obtain ⟨a, ha, b, hb, rfl⟩ := exists_parts_of_mem_joined h
      exact ⟨[a, b], .cons (.inl ha) (.cons hb .nil), by simp⟩
  | leftDeepJoin j =>
      cases ids with
      | nil => cases h
      | cons i rest =>
          rw [node_leftDeepJoin] at h
          obtain ⟨a, ha, parts, hparts, rfl⟩ :=
            exists_parts_of_mem_chained (mem_of_mem_filtered h)
          exact ⟨a :: parts, .cons (.inl ha) (forall₂_map_right_iff.mp hparts), rfl⟩
  | _ => cases hjoin

end Meaning

namespace Plan

variable {p : Plan} {x : NodeId} {c d : ColumnRef}
variable {V : Type} {M : Meaning V}

/-- The columns of an input have their values from its part. -/
theorem env_of_parts {ids : List NodeId} (hnodup : ids.Nodup) {P : List V → NodeId → Prop}
    {parts : List (List V)} (hparts : Forall₂ P parts ids)
    (hlength : ∀ i ∈ ids, ∀ part, P part i → part.length = p.columnCount i) {i : NodeId}
    (hi : i ∈ ids) :
    ∃ part, P part i ∧ ∀ k < p.columnCount i,
      (M.env (p.columnsOf ids) parts.flatten).column ⟨i, k⟩ = M.cell part k := by
  induction hparts with
  | nil => cases hi
  | @cons part head parts ids hpart hparts ih =>
      obtain ⟨hhead, hnodup⟩ := nodup_cons.mp hnodup
      obtain ⟨hlen, hlength⟩ := forall_mem_cons.mp hlength
      have hlen := hlen part hpart
      rw [flatten_cons]
      by_cases heq : i = head
      · subst heq
        refine ⟨part, hpart, fun k hk => ?_⟩
        rw [Meaning.env_column, idxOf_columnsOf_cons hk, Meaning.cell_append_left (hlen ▸ hk)]
      · obtain ⟨part', hpart', hcells⟩ := ih hnodup hlength (mem_of_ne_of_mem heq hi)
        refine ⟨part', hpart', fun k hk => ?_⟩
        have hnot : (⟨i, k⟩ : ColumnRef) ∉ ColumnRef.range head (p.columnCount head) := fun h =>
          heq (ColumnRef.mem_range.mp h).1
        rw [← hcells k hk, Meaning.env_column, Meaning.env_column, columnsOf_cons,
          idxOf_append_of_notMem hnot, ColumnRef.length_range, ← hlen]
        exact Meaning.cell_append_right part parts.flatten _

variable [DecidableEq V]

section Forwarded

variable {l : List NodeId} {input : NodeId} {row : List V} (h : p.Ordered l) (hx : x ∈ l)
  (hinputs : p.inputs x = [input]) (hrow : row ∈ p.rows M x)
include h hx hinputs hrow

theorem Ordered.mem_rows_of_filter_or_sort
    (hop : (∃ f, p.op x = .filter f) ∨ ∃ s, p.op x = .sort s) : row ∈ p.rows M input := by
  rw [h.rows_eq hx, hinputs] at hrow
  rcases hop with ⟨f, hop⟩ | ⟨s, hop⟩
  · rw [hop] at hrow
    exact Meaning.mem_of_mem_filtered hrow
  · rw [hop] at hrow
    exact Meaning.mem_of_mem_sorted hrow

/-- The keys of a group are those of one of its rows. -/
theorem Ordered.exists_row_of_aggregate {a : Aggregate} (hop : p.op x = .aggregate a)
    (hkeys : a.groupCount ≠ 0) :
    ∃ r ∈ p.rows M input, ∀ k < a.groupCount, M.cell row k = M.cell r k := by
  rw [h.rows_eq hx, hinputs, hop] at hrow
  obtain ⟨⟨key, rows⟩, hgroup, rfl⟩ := mem_map.mp hrow
  rw [Meaning.groups, if_neg hkeys] at hgroup
  obtain ⟨key', hkey, hpair⟩ := mem_map.mp hgroup
  cases hpair
  obtain ⟨r, hr, rfl⟩ := mem_map.mp (mem_eraseDups.mp hkey)
  refine ⟨r, hr, fun k hk => ?_⟩
  rw [Meaning.cell_append_left (by rwa [Meaning.length_fit]), Meaning.cell_fit hk,
    Meaning.cell_fit hk]

/-- A projection has the values of columns from a row of its input. -/
theorem Ordered.exists_row_of_project {j : Project} (hop : p.op x = .project j) :
    ∃ r ∈ p.rows M input, ∀ k c, j.exprs[k]? = some (.column c) →
      M.cell row k = (M.env (p.columnsOf (p.reads x)) r).column c := by
  rw [h.rows_eq hx, hinputs, hop] at hrow
  obtain ⟨i, hi, rfl⟩ := mem_map.mp hrow
  have hlt : i < (p.rows M input).length := by simpa using hi
  refine ⟨(p.rows M input)[i], getElem_mem hlt, fun k c hk => ?_⟩
  rw [Meaning.cell, getElem?_map, hk]
  simp [Meaning.eval, Meaning.leafValue, hlt]

end Forwarded

/-- Forwarded values come from one row of the input: from its columns, or, if a projection reads a
join, from those of the inputs of the join. -/
theorem Scoped.exists_row_of_forwarded (h : p.Scoped) (hx : x ∈ p.order) {a : Nat}
    (hc : p.forwarded? ⟨x, a⟩ = some c) {row : List V} (hrow : row ∈ p.rows M x) :
    ∃ input, p.inputs x = [input] ∧ ∃ r ∈ p.rows M input,
      (∀ k d, p.forwarded? ⟨x, k⟩ = some d →
        d.source = input ∧ M.cell row k = M.cell r d.index) ∨
      ((p.op input).isJoin = true ∧ ∀ k d, p.forwarded? ⟨x, k⟩ = some d →
        d ∈ p.columnsOf (p.inputs input) ∧
          M.cell row k = (M.env (p.columnsOf (p.inputs input)) r).column d) := by
  have hordered := h.arranged.toOrdered
  obtain ⟨input, hinputs, ⟨j, hop⟩ | ⟨g, hop⟩ | hop⟩ := forwarded?_eq_some hc
  · obtain ⟨r, hr, hvalues⟩ := hordered.exists_row_of_project hx hinputs hrow hop
    have hreads : p.reads x = p.exposed input := by
      rw [reads_of_input (by rw [hop]; rfl) hinputs]
    have hcolumn : ∀ k d, p.forwarded? ⟨x, k⟩ = some d →
        d ∈ p.columnsOf (p.exposed input) ∧
          M.cell row k = (M.env (p.columnsOf (p.exposed input)) r).column d := by
      intro k d hd
      rw [forwarded?_of_project hinputs hop] at hd
      rw [← hreads]
      exact ⟨h.mem_columnsOf hx (columns_of_project hop hd), hvalues k d hd⟩
    refine ⟨input, hinputs, r, hr, ?_⟩
    cases hjoin : (p.op input).isJoin with
    | true =>
        rw [exposed_of_join hjoin] at hcolumn
        exact .inr ⟨rfl, hcolumn⟩
    | false =>
        rw [exposed_of_not_join hjoin] at hcolumn
        refine .inl fun k d hd => ?_
        obtain ⟨hmem, hcell⟩ := hcolumn k d hd
        obtain ⟨hsource, hlt⟩ := Plan.mem_columnsOf.mp hmem
        obtain ⟨i, l⟩ := d
        obtain rfl : i = input := mem_singleton.mp hsource
        exact ⟨rfl, by rw [hcell, Meaning.env_column, idxOf_columnsOf_cons hlt]⟩
  · have hpos : g.groupCount ≠ 0 :=
      (Nat.zero_lt_of_lt ((forwarded?_of_aggregate hinputs hop).mp hc).1).ne'
    obtain ⟨r, hr, hvalues⟩ := hordered.exists_row_of_aggregate hx hinputs hrow hop hpos
    refine ⟨input, hinputs, r, hr, .inl fun k d hd => ?_⟩
    obtain ⟨hlt, rfl⟩ := (forwarded?_of_aggregate hinputs hop).mp hd
    exact ⟨rfl, hvalues k hlt⟩
  · refine ⟨input, hinputs, row, hordered.mem_rows_of_filter_or_sort hx hinputs hrow hop,
      .inl fun k d hd => ?_⟩
    cases (forwarded?_of_filter_or_sort hinputs hop).symm.trans hd
    exact ⟨rfl, rfl⟩

/-! ### Equal values -/

namespace Unambiguous

variable (h : p.Unambiguous) (hapart : p.SidesApart)
include h hapart

/-- Columns of one input of a join have their values from one part of each row. -/
theorem env_eq_of_meet_join (hx : x ∈ p.order) (hjoin : (p.op x).isJoin = true)
    (hinputs : ∀ i ∈ p.inputs x, ∀ a b, p.Meet ⟨i, a⟩ ⟨i, b⟩ →
      ∀ row ∈ p.rows M i, M.cell row a = M.cell row b)
    (hc : c ∈ p.columnsOf (p.inputs x)) (hd : d ∈ p.columnsOf (p.inputs x)) (hmeet : p.Meet c d) :
    ∀ row ∈ p.rows M x, (M.env (p.columnsOf (p.inputs x)) row).column c =
      (M.env (p.columnsOf (p.inputs x)) row).column d := by
  intro row hrow
  have hsource : c.source = d.source := by
    by_contra hne
    exact h.not_meet_of_sidesApart hapart hx hjoin hc hd hne hmeet
  obtain ⟨i, a⟩ := c
  obtain ⟨k, b⟩ := d
  obtain rfl : i = k := hsource
  obtain ⟨hi, ha⟩ := Plan.mem_columnsOf.mp hc
  have hb := (Plan.mem_columnsOf.mp hd).2
  rw [h.arranged.toOrdered.rows_eq hx] at hrow
  obtain ⟨parts, hparts, rfl⟩ := Meaning.exists_parts_of_join hjoin (h.arranged.arity x hx) hrow
  obtain ⟨part, hpart, hcells⟩ := env_of_parts (p := p) (M := M) (h.distinct x hx hjoin) hparts
    (fun k hk part hpart => hpart.length_eq
      (h.arranged.length_of_mem_rows k (h.arranged.mem_of_input hx hk))) hi
  rw [hcells a ha, hcells b hb]
  rcases hpart with hpart | rfl
  · exact hinputs i hi a b hmeet part hpart
  · rw [Meaning.cell_replicate_null, Meaning.cell_replicate_null]

/-- Columns of a node whose traces meet have equal values. -/
theorem cell_eq_of_meet : ∀ x ∈ p.order, ∀ a b, p.Meet ⟨x, a⟩ ⟨x, b⟩ →
    ∀ row ∈ p.rows M x, M.cell row a = M.cell row b := by
  suffices hboth : ∀ x ∈ p.order,
      (∀ a b, p.Meet ⟨x, a⟩ ⟨x, b⟩ → ∀ row ∈ p.rows M x, M.cell row a = M.cell row b) ∧
      ((p.op x).isJoin = true → ∀ c ∈ p.columnsOf (p.inputs x), ∀ d ∈ p.columnsOf (p.inputs x),
        p.Meet c d → ∀ row ∈ p.rows M x, (M.env (p.columnsOf (p.inputs x)) row).column c =
          (M.env (p.columnsOf (p.inputs x)) row).column d) from fun x hx => (hboth x hx).1
  refine h.arranged.toOrdered.induction fun x hx ih => ⟨fun a b hmeet row hrow => ?_,
    fun hjoin c hc d hd => h.env_eq_of_meet_join hapart hx hjoin (fun i hi => (ih i hi).1) hc hd⟩
  by_cases hab : a = b
  · rw [hab]
  obtain ⟨c, d, hc, hd, hmeet⟩ := h.toScoped.forwards_of_meet hx hmeet hab
  obtain ⟨input, hinputs, r, hr, hvalues | ⟨hjoin, hvalues⟩⟩ :=
    h.toScoped.exists_row_of_forwarded hx hc hrow
  all_goals
    have ih := ih input (hinputs ▸ mem_singleton_self input)
    obtain ⟨hcIn, hcell⟩ := hvalues a c hc
    obtain ⟨hdIn, hdell⟩ := hvalues b d hd
    rw [hcell, hdell]
  · obtain ⟨i, k⟩ := c
    obtain ⟨i', l⟩ := d
    obtain rfl : i = input := hcIn
    obtain rfl : i' = i := hdIn
    exact ih.1 k l hmeet r hr
  · exact ih.2 hjoin c hcIn d hdIn hmeet r hr

end Unambiguous

end Plan

end QueryPlan
