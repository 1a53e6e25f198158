import QueryPlan.Proofs.Pruning.Kept
/-!
# QueryPlan.Proofs.Pruning.Remaining

**The positions that remain of the columns of a node.** When a projection keeps some of its columns,
the nodes that carry its columns keep the same ones (`Plan.remaining`), and all other nodes keep
every column (`Dropping.remaining_of_not_carries`).
-/

namespace QueryPlan

open List

/-- The positions that remain of columns standing one after another, from the width of every part
and the positions that remain of it. -/
def joinedPlaces : List (Nat × List Nat) → List Nat
  | [] => []
  | (width, places) :: rest => places ++ (joinedPlaces rest).map (width + ·)

/-- The positions that remain of the columns of a node, from the widths of its inputs and the
positions that remain of theirs. -/
def Layout.remaining : Layout → List (Nat × List Nat) → List Nat
  | own width _, _ => range width
  | first, parts => (parts.headD (0, [])).2
  | all, parts => joinedPlaces parts

/-! ### Positions in increasing order -/

theorem joinedPlaces_sublist {parts : List (Nat × List Nat)}
    (h : ∀ part ∈ parts, part.2 <+ range part.1) :
    joinedPlaces parts <+ range (parts.map Prod.fst).sum := by
  induction parts with
  | nil => exact Sublist.refl _
  | cons part rest ih =>
      obtain ⟨hpart, hrest⟩ := forall_mem_cons.mp h
      rw [map_cons, sum_cons, range_add]
      exact hpart.append ((ih hrest).map _)

/-- If every column remains of every part, every column remains. -/
theorem joinedPlaces_range (widths : List Nat) :
    joinedPlaces (widths.map fun width => (width, range width)) = range widths.sum := by
  induction widths with
  | nil => rfl
  | cons width rest ih => rw [map_cons, joinedPlaces, ih, sum_cons, range_add]

theorem length_joinedPlaces (parts : List (Nat × List Nat)) :
    (joinedPlaces parts).length = (parts.map fun part => part.2.length).sum := by
  induction parts with
  | nil => rfl
  | cons part rest ih => rw [joinedPlaces, length_append, length_map, ih, map_cons, sum_cons]

/-- Positions in increasing order start with the first ones if these are among them. -/
theorem getElem?_of_range_subset {places : List Nat} {width count : Nat}
    (h : places <+ range width) (hcount : range count ⊆ places) {i : Nat} (hi : i < count) :
    places[i]? = some i := by
  have hle : count ≤ width := by
    have hlast : count - 1 < width :=
      mem_range.mp (h.subset (hcount (mem_range.mpr (by omega))))
    omega
  obtain ⟨rest, rfl⟩ := Nat.exists_eq_add_of_le hle
  rw [range_add, sublist_append_iff] at h
  obtain ⟨low, high, rfl, hlow, hhigh⟩ := h
  have hsub : range count ⊆ low := by
    intro k hk
    refine (mem_append.mp (hcount hk)).resolve_right fun hmem => ?_
    obtain ⟨m, -, rfl⟩ := mem_map.mp (hhigh.subset hmem)
    have := mem_range.mp hk
    omega
  have hlength : count ≤ low.length := by
    simpa using (nodup_range.subperm hsub).length_le
  rw [hlow.eq_of_length_le (by simpa using hlength)]
  rw [getElem?_append_left (by simpa using hi), getElem?_range hi]

namespace Plan

/-- The positions that remain of the columns of a node when a projection keeps only some. -/
def remaining (p : Plan) (id : NodeId) (kept : List Nat) : NodeId → List Nat :=
  p.fold [] fun x parts =>
    if x = id then kept
    else (p.op x).layout.remaining (((p.inputs x).map p.columnCount).zip parts)

/-- The positions that remain of the columns of some nodes, one after another. -/
def remainingOf (p : Plan) (id : NodeId) (kept : List Nat) (ids : List NodeId) : List Nat :=
  joinedPlaces (ids.map fun i => (p.columnCount i, p.remaining id kept i))

variable {p q r : Plan} {id x n : NodeId} {root : Option NodeId} {j : Project} {used kept : List Nat}

theorem Ordered.remaining_eq {l : List NodeId} (h : p.Ordered l) (hx : x ∈ l) :
    p.remaining id kept x = if x = id then kept else (p.op x).layout.remaining
      ((p.inputs x).map fun i => (p.columnCount i, p.remaining id kept i)) := by
  rw [remaining, h.fold_eq hx, ← zip_map']

/-- If every column remains of every node, every column remains. -/
theorem remainingOf_eq_range {ids : List NodeId}
    (h : ∀ i ∈ ids, p.remaining id kept i = range (p.columnCount i)) :
    p.remainingOf id kept ids = range (ids.map p.columnCount).sum := by
  have hranges := joinedPlaces_range (ids.map p.columnCount)
  rw [map_map] at hranges
  rw [remainingOf, map_congr_left fun i hi => congrArg (Prod.mk (p.columnCount i)) (h i hi)]
  exact hranges

theorem remainingOf_cons (p : Plan) (id : NodeId) (kept : List Nat) (i : NodeId)
    (ids : List NodeId) : p.remainingOf id kept (i :: ids) =
      p.remaining id kept i ++ (p.remainingOf id kept ids).map (p.columnCount i + ·) := rfl

/-- A node stands before what carries its columns. -/
theorem Carries.eq_or_before (h : p.Carries id x) (hp : p.Ordered p.order) :
    x = id ∨ [id, x] <+ p.order := by
  induction h with
  | refl id => exact .inl rfl
  | @up a n x hn _ _ ih =>
      obtain ⟨hlive, hread⟩ := mem_consumers.mp hn
      have hpair := hp.before n hlive a hread
      rcases ih with rfl | hbefore
      · exact .inr hpair
      · exact .inr (pair_sublist_trans hp.nodup hpair hbefore)

/-- A projection keeps the columns that are read only, and no node carries its columns along two
ways. -/
structure Dropping (p : Plan) (root : Option NodeId) (id : NodeId) (j : Project)
    (used kept : List Nat) : Prop where
  wellFormed : p.WellFormed
  live : id ∈ p.order
  op_eq : p.op id = .project j
  width_pos : 0 < j.exprs.length
  usage_eq : p.usage root id = .ok (some used)
  kept_eq : kept = keptColumns j.exprs.length used
  apart : ∀ n ∈ p.order, (p.op n).carries = true → ∀ a ∈ p.inputs n, ∀ b ∈ p.inputs n,
    p.Carries id a → p.Carries id b → a = b

/-- What is read of the columns of a node is known, and remains. -/
def Known (p : Plan) (root : Option NodeId) (id : NodeId) (kept : List Nat) (a : NodeId) : Prop :=
  ∃ fuel u, p.usageWithin root fuel a = .ok (some u) ∧
    ∀ c ∈ u, c < p.columnCount a → c ∈ p.remaining id kept a

namespace Dropping

variable (d : Dropping p root id j used kept)
include d

theorem ordered : p.Ordered p.order := d.wellFormed.arranged.toOrdered

theorem inArena : id.index < p.arena.size := d.wellFormed.inArena d.live

theorem columnCount_self : p.columnCount id = j.exprs.length := by
  have hlayout : (p.op id).layout = .own j.exprs.length j.fields := by rw [d.op_eq]; rfl
  exact d.ordered.columnCount_of_own d.live hlayout

theorem kept_sublist : kept <+ range (p.columnCount id) := by
  rw [d.columnCount_self, d.kept_eq]
  rcases keptColumns_eq j.exprs.length used with h | h <;> rw [h]
  · exact filter_sublist
  · exact singleton_sublist.mpr (mem_range.mpr d.width_pos)

theorem lt_of_mem_kept {i : Nat} (hi : i ∈ kept) : i < j.exprs.length :=
  d.columnCount_self ▸ mem_range.mp (d.kept_sublist.subset hi)

theorem remaining_self : p.remaining id kept id = kept :=
  (d.ordered.remaining_eq d.live).trans (if_pos rfl)

theorem remaining_eq (hx : x ∈ p.order) (hne : x ≠ id) :
    p.remaining id kept x = (p.op x).layout.remaining
      ((p.inputs x).map fun i => (p.columnCount i, p.remaining id kept i)) :=
  (d.ordered.remaining_eq hx).trans (if_neg hne)

/-- All columns remain of a node that does not carry those of the projection. -/
theorem remaining_of_not_carries : ∀ x ∈ p.order, ¬p.Carries id x →
    p.remaining id kept x = range (p.columnCount x) := by
  refine d.ordered.induction fun x hx ih hcarries => ?_
  have hne : x ≠ id := fun heq => hcarries (heq ▸ .refl x)
  rw [d.remaining_eq hx hne, d.ordered.columnCount_eq hx]
  cases hop : (p.op x).layout with
  | own width names => rfl
  | first =>
      obtain ⟨i, rest, hinputs⟩ := Operator.inputs_of_layout_first hop (d.wellFormed.arranged.arity x hx)
      have hi : i ∈ p.inputs x := hinputs ▸ mem_cons_self
      rw [hinputs]
      exact ih i hi fun hcarried => hcarries (hcarried.of_input d.usage_eq hx hi (by simp [hop]))
  | all =>
      exact remainingOf_eq_range fun i hi => ih i hi fun hcarried =>
        hcarries (hcarried.of_input d.usage_eq hx hi (by simp [hop]))

/-- What remains stays in order. -/
theorem remaining_sublist : ∀ x ∈ p.order, p.remaining id kept x <+ range (p.columnCount x) := by
  refine d.ordered.induction fun x hx ih => ?_
  by_cases hne : x = id
  · rw [hne, d.remaining_self]
    exact d.kept_sublist
  rw [d.remaining_eq hx hne, d.ordered.columnCount_eq hx]
  cases hop : (p.op x).layout with
  | own width names => exact Sublist.refl _
  | first =>
      obtain ⟨i, rest, hinputs⟩ := Operator.inputs_of_layout_first hop (d.wellFormed.arranged.arity x hx)
      rw [hinputs]
      exact ih i (hinputs ▸ mem_cons_self)
  | all =>
      have hparts : ∀ part ∈ (p.inputs x).map fun i => (p.columnCount i, p.remaining id kept i),
          part.2 <+ range part.1 := by
        intro part hpart
        obtain ⟨i, hi, rfl⟩ := mem_map.mp hpart
        exact ih i hi
      have hjoined := joinedPlaces_sublist hparts
      rwa [map_map] at hjoined

/-- The narrowed plan has the columns that remain. -/
theorem columnCount_narrow : ∀ x ∈ p.order,
    (p.narrow id j kept).columnCount x = (p.remaining id kept x).length := by
  have harranged : (p.narrow id j kept).Arranged p.order :=
    arranged_narrow d.inArena d.op_eq d.wellFormed.arranged
  refine harranged.columnCount_unique fun x hx => ?_
  by_cases hne : x = id
  · rw [hne, op_narrow_self d.inArena, d.remaining_self]
    exact (length_filterMap_getElem? fun i => d.lt_of_mem_kept).symm
  rw [op_narrow_of_ne hne, inputs_narrow, d.remaining_eq hx hne]
  cases hop : (p.op x).layout with
  | own width names => exact length_range
  | first =>
      obtain ⟨i, rest, hinputs⟩ := Operator.inputs_of_layout_first hop (d.wellFormed.arranged.arity x hx)
      rw [hinputs]
      rfl
  | all =>
      change (joinedPlaces _).length = _
      rw [length_joinedPlaces, map_map]
      rfl

/-! ### Along the readers -/

/-- What reads a node that carries the columns is not the projection. -/
theorem ne_of_consumer {a : NodeId} (ha : p.Carries id a) (hn : n ∈ p.consumers a) : n ≠ id := by
  obtain ⟨hlive, hread⟩ := mem_consumers.mp hn
  have hpair := d.ordered.before n hlive a hread
  rcases ha.eq_or_before d.ordered with rfl | hbefore
  · exact (ne_of_pair d.ordered.nodup hpair).symm
  · exact (ne_of_pair d.ordered.nodup (pair_sublist_trans d.ordered.nodup hbefore hpair)).symm

/-- A filter or a sort over a node keeps the columns that the node keeps. -/
theorem remaining_of_first {a : NodeId} (ha : p.Carries id a) (hn : n ∈ p.consumers a)
    (hop : (p.op n).carries = true) (hjoin : (p.op n).isJoin = false) :
    p.inputs n = [a] ∧ p.columnCount n = p.columnCount a ∧
      p.remaining id kept n = p.remaining id kept a := by
  obtain ⟨hlive, hread⟩ := mem_consumers.mp hn
  have hone : (p.op n).arity = .exactly 1 ∧ (p.op n).layout = .first := by
    cases hopn : p.op n <;> rw [hopn] at hop hjoin <;> simp_all [Operator.carries, Operator.isJoin, Operator.arity, Operator.layout]
  obtain ⟨i, hi, -⟩ := d.wellFormed.input_of_arity_one hlive hone.1
  rw [hi, mem_singleton] at hread
  subst hread
  rw [d.remaining_eq hlive (d.ne_of_consumer ha hn), d.ordered.columnCount_eq hlive, hone.2, hi]
  exact ⟨rfl, rfl, rfl⟩

/-- The columns of a join remain that are read of the input which carries the columns. -/
theorem mem_joinedPlaces_of_used {a : NodeId} {joined columns : List Nat} {ids : List NodeId}
    (hids : ∀ i ∈ ids, i ∈ p.order) (hcount : ids.count a ≤ 1)
    (hothers : ∀ i ∈ ids, i ≠ a → p.remaining id kept i = range (p.columnCount i))
    (hself : ∀ c ∈ columns, c < p.columnCount a → c ∈ p.remaining id kept a) {offset : Nat}
    (hcolumns : p.columnsOfInput a joined ids offset = .ok columns) :
    ∀ c, offset + c ∈ joined → c < (ids.map p.columnCount).sum →
      c ∈ p.remainingOf id kept ids := by
  induction ids generalizing offset columns with
  | nil => exact fun c _ hlt => absurd hlt (Nat.not_lt_zero c)
  | cons i rest ih =>
      obtain ⟨hi, hrest⟩ := forall_mem_cons.mp hids
      rw [columnsOfInput, Result.bind_ok (d.wellFormed.arranged.width_eq hi)] at hcolumns
      intro c hc hlt
      rw [map_cons, sum_cons] at hlt
      rw [remainingOf_cons, mem_append, mem_map]
      by_cases hia : i = a
      · subst hia
        rw [if_pos rfl] at hcolumns
        have hcolumns := Result.pure_eq_ok.mp hcolumns
        rw [count_cons_self] at hcount
        have habsent : i ∉ rest := count_eq_zero.mp (by omega)
        by_cases hhere : c < p.columnCount i
        · refine .inl (hself c (hcolumns ▸ mem_filterMap.mpr ⟨offset + c, hc, ?_⟩) hhere)
          simp [hhere]
        · refine .inr ⟨c - p.columnCount i, ?_, by omega⟩
          rw [remainingOf_eq_range fun k hk => hothers k (mem_cons_of_mem _ hk) fun heq =>
            habsent (heq ▸ hk)]
          exact mem_range.mpr (by omega)
      · rw [if_neg hia] at hcolumns
        rw [count_cons_of_ne hia] at hcount
        by_cases hhere : c < p.columnCount i
        · rw [hothers i mem_cons_self hia]
          exact .inl (mem_range.mpr hhere)
        · refine .inr ⟨c - p.columnCount i, ?_, by omega⟩
          refine ih hrest hcount (fun k hk => hothers k (mem_cons_of_mem _ hk)) hself hcolumns _
            ?_ (by omega)
          rwa [show offset + p.columnCount i + (c - p.columnCount i) = offset + c by omega]

/-- What reads a node that carries the columns reads nothing else that does not keep every
column. -/
theorem remaining_of_other {a i : NodeId} (ha : p.Carries id a) (hn : n ∈ p.consumers a)
    (hop : (p.op n).carries = true) (hi : i ∈ p.inputs n) (hne : i ≠ a) :
    p.remaining id kept i = range (p.columnCount i) := by
  obtain ⟨hlive, hread⟩ := mem_consumers.mp hn
  refine d.remaining_of_not_carries i (d.ordered.mem_of_input hlive hi) fun hcarries => hne ?_
  exact d.apart n hlive hop i hi a hread hcarries ha

theorem known_self : Known p root id kept id := by
  refine ⟨p.walkBound, used, d.usage_eq, fun c hc hlt => ?_⟩
  rw [d.remaining_self, d.kept_eq]
  exact mem_keptColumns (d.columnCount_self ▸ hlt) hc

theorem known_step {a : NodeId} (ha : p.Carries id a) (hknown : Known p root id kept a)
    (hn : n ∈ p.consumers a) (hop : (p.op n).carries = true) : Known p root id kept n := by
  obtain ⟨fuel, u, hu, hmem⟩ := hknown
  obtain ⟨k, rfl, husage⟩ := usageWithin_eq_some hu
  have hreader := husage.reader n hn
  unfold Reader at hreader
  cases hopn : p.op n with
  | filter f | sort s =>
      rw [hopn] at hreader
      obtain ⟨v, hsub, hv⟩ := hreader
      obtain ⟨-, hcount, hremaining⟩ :=
        d.remaining_of_first ha hn hop (by rw [hopn]; rfl)
      exact ⟨k, v, hv, fun c hc hlt => hremaining ▸ hmem c (hsub hc) (hcount ▸ hlt)⟩
  | join j =>
      rw [hopn] at hreader
      obtain ⟨huses, joined, columns, hjoined, hcolumns, hsub⟩ := hreader
      obtain ⟨hlive, -⟩ := mem_consumers.mp hn
      have hlayout : (p.op n).layout = .all := by rw [hopn]; rfl
      refine ⟨k, joined, hjoined, fun c hc hlt => ?_⟩
      rw [d.ordered.columnCount_eq hlive, hlayout] at hlt
      rw [d.remaining_eq hlive (d.ne_of_consumer ha hn), hlayout]
      refine d.mem_joinedPlaces_of_used (fun i hi => d.ordered.mem_of_input hlive hi) huses.le
        (fun i hi hne => d.remaining_of_other ha hn hop hi hne)
        (fun c hc => hmem c (hsub hc)) hcolumns c (by rwa [Nat.zero_add]) hlt
  | _ => rw [hopn] at hop; cases hop

/-- What is read of a node that carries the columns remains. -/
theorem known {a : NodeId} (ha : p.Carries id a) : Known p root id kept a := by
  have hall : ∀ {b a : NodeId}, p.Carries b a → p.Carries id b → Known p root id kept b →
      Known p root id kept a := by
    intro b a h
    induction h with
    | refl b => exact fun _ hknown => hknown
    | up hn hop _ ih =>
        exact fun hb hknown => ih (hb.step hn hop) (d.known_step hb hknown hn hop)
  exact hall ha (.refl id) d.known_self

end Dropping

end Plan

end QueryPlan
