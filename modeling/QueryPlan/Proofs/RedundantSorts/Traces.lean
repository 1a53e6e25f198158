import QueryPlan.Plan.Collation
import QueryPlan.Plan.Validity
import QueryPlan.Proofs.Meaning.Rows
import QueryPlan.Proofs.Plan.Cycles
import QueryPlan.Proofs.Scope.Repositioning
import Mathlib.Data.List.Pairwise
import Mathlib.Logic.Relation
/-!
# QueryPlan.Proofs.RedundantSorts.Traces

**Columns that hold the same values.** A column is traced from node to node as long as a node
forwards the values of a column of its input (`Plan.TracesTo`). Where every node stands behind its
inputs (`Plan.Founded`), a trace comes to no node twice, so it is followed to its end
(`Founded.mem_equivalentColumns_iff`).

Two columns of a node whose traces meet hold the same value in every row of the node
(`Scoped.cell_eq_of_meet`), but for one case. A projection over a join refers to the inputs of the
join, so the traces may come from different rows of a table that the join pairs with itself. This is
excluded by `Plan.SidesApart`.
-/

namespace QueryPlan

open List

/-- Lists that match a common one match each other. -/
theorem forall₂_of_common {α β γ : Type} {R : α → γ → Prop} {S : β → γ → Prop} {T : α → β → Prop}
    (hT : ∀ a b c, R a c → S b c → T a b) {as : List α} {bs : List β} {cs : List γ}
    (has : Forall₂ R as cs) (hbs : Forall₂ S bs cs) : Forall₂ T as bs := by
  induction has generalizing bs with
  | nil =>
      cases hbs
      exact .nil
  | cons ha _ ih =>
      cases hbs with
      | cons hb hbs => exact .cons (hT _ _ _ ha hb) (ih hbs)

namespace Plan

variable {p : Plan} {x : NodeId} {c d e : ColumnRef}

/-! ### Traces -/

/-- A column is another one or has its values from it, over any number of nodes. -/
def TracesTo (p : Plan) : ColumnRef → ColumnRef → Prop :=
  Relation.ReflTransGen fun c d => p.forwarded? c = some d

/-- Two columns have their values from a common one. -/
def Meet (p : Plan) (c d : ColumnRef) : Prop := ∃ e, p.TracesTo c e ∧ p.TracesTo d e

/-- A column forwards one column at most, so two traces from it lie on one way. -/
theorem meet_equivalence (p : Plan) : Equivalence p.Meet :=
  Relation.equivalence_join_reflTransGen fun _ b _ hb hc =>
    ⟨b, .refl, Option.some.inj (hb.symm.trans hc) ▸ .refl⟩

/-- No columns of two nodes are equivalent to a common one. -/
def ColumnsApart (p : Plan) (i k : NodeId) : Prop :=
  ∀ a < p.columnCount i, ∀ b < p.columnCount k,
    ∀ e ∈ p.equivalentColumns i a, e ∉ p.equivalentColumns k b

/-- The inputs of every join have no common columns, as far as columns are traced. -/
def SidesApart (p : Plan) : Prop :=
  ∀ x ∈ p.order, (p.op x).isJoin = true → (p.inputs x).Pairwise p.ColumnsApart

instance (p : Plan) (i k : NodeId) : Decidable (p.ColumnsApart i k) :=
  inferInstanceAs (Decidable (∀ a < _, ∀ b < _, _))

instance (p : Plan) : Std.Symm p.ColumnsApart where
  symm _ _ hapart b hb a ha e he he' := hapart a ha b hb e he' he

instance (p : Plan) : Decidable p.SidesApart :=
  inferInstanceAs (Decidable (∀ x ∈ p.order, _ → List.Pairwise _ _))

theorem tracesTo_of_mem_followColumns {fuel : Nat} {seen : List ColumnRef} {start : ColumnRef}
    (hc : p.TracesTo start c) (hseen : ∀ d ∈ seen, p.TracesTo start d)
    (he : e ∈ p.followColumns fuel c seen) : p.TracesTo start e := by
  induction fuel generalizing c seen with
  | zero => exact hseen e he
  | succ fuel ih =>
      rw [followColumns] at he
      split at he
      · next d hd =>
        split at he
        · exact hseen e he
        · refine ih (hc.tail hd) (fun f hf => ?_) he
          rcases mem_append.mp hf with hf | hf
          · exact hseen f hf
          · exact mem_singleton.mp hf ▸ hc.tail hd
      · exact hseen e he

/-- Equivalent columns are those of a trace. -/
theorem tracesTo_of_mem_equivalentColumns {k : Nat} (he : e ∈ p.equivalentColumns x k) :
    p.TracesTo ⟨x, k⟩ e :=
  tracesTo_of_mem_followColumns .refl (fun _ hd => mem_singleton.mp hd ▸ .refl) he

theorem subset_followColumns {fuel : Nat} {seen : List ColumnRef} (he : e ∈ seen) :
    e ∈ p.followColumns fuel c seen := by
  induction fuel generalizing c seen with
  | zero => exact he
  | succ fuel ih =>
      rw [followColumns]
      split
      · split
        · exact he
        · exact ih (mem_append_left _ he)
      · exact he

/-- Columns that forward to each other are followed to their end if none of them comes twice. -/
theorem mem_followColumns_of_walk {fuel : Nat} {seen walk : List ColumnRef}
    (hwalk : IsChain (fun c d => p.forwarded? c = some d) (c :: walk)) (hnodup : walk.Nodup)
    (hnew : ∀ d ∈ walk, d ∉ seen) (hfuel : walk.length ≤ fuel) (he : e ∈ seen ++ walk) :
    e ∈ p.followColumns fuel c seen := by
  induction walk generalizing fuel c seen with
  | nil => exact subset_followColumns (by simpa using he)
  | cons d walk ih =>
      obtain ⟨hd, hwalk⟩ := isChain_cons_cons.mp hwalk
      obtain ⟨hdWalk, hnodup⟩ := nodup_cons.mp hnodup
      obtain ⟨fuel, rfl⟩ : ∃ n, fuel = n + 1 := Nat.exists_eq_succ_of_ne_zero (by
        rw [length_cons] at hfuel
        omega)
      -- The next column of the walk was not seen, so it is followed as well.
      have hdNew : d ∉ seen := hnew d mem_cons_self
      rw [followColumns, hd]
      dsimp only
      rw [if_neg (by simpa using hdNew)]
      refine ih hwalk hnodup ?_ (Nat.le_of_succ_le_succ hfuel) (by simpa using he)
      intro f hf hmem
      rcases mem_append.mp hmem with hmem | hmem
      · exact hnew f (mem_cons_of_mem _ hf) hmem
      · exact hdWalk (mem_singleton.mp hmem ▸ hf)

section Forwarded

variable {input : NodeId} {k : Nat} (hinputs : p.inputs x = [input])
include hinputs

/-- A projection forwards columns of other nodes. -/
theorem forwarded?_of_project {j : Project} (hop : p.op x = .project j) :
    p.forwarded? ⟨x, k⟩ = some d ↔ j.exprs[k]? = some (.column d) := by
  unfold forwarded?
  rw [hinputs, hop]
  dsimp only
  split
  · next heq =>
    rw [heq]
    exact ⟨fun h => by cases h; rfl, fun h => by cases h; rfl⟩
  · next hnot => exact iff_of_false (by simp) fun heq => hnot d heq

/-- A grouping forwards its keys. -/
theorem forwarded?_of_aggregate {a : Aggregate} (hop : p.op x = .aggregate a) :
    p.forwarded? ⟨x, k⟩ = some d ↔ k < a.groupCount ∧ d = ⟨input, k⟩ := by
  unfold forwarded?
  rw [hinputs, hop]
  simp [eq_comm]

/-- Filters and sorts forward every column. -/
theorem forwarded?_of_filter_or_sort (hop : (∃ f, p.op x = .filter f) ∨ ∃ s, p.op x = .sort s) :
    p.forwarded? ⟨x, k⟩ = some ⟨input, k⟩ := by
  unfold forwarded?
  rw [hinputs]
  rcases hop with ⟨f, hop⟩ | ⟨s, hop⟩ <;> rw [hop]

end Forwarded

/-- Nothing else forwards a column. -/
theorem forwarded?_eq_some (h : p.forwarded? c = some d) : ∃ input, p.inputs c.source = [input] ∧
    ((∃ j, p.op c.source = .project j) ∨ (∃ a, p.op c.source = .aggregate a) ∨
      (∃ f, p.op c.source = .filter f) ∨ ∃ s, p.op c.source = .sort s) := by
  unfold forwarded? at h
  split at h
  · next input hinputs =>
    refine ⟨input, hinputs, ?_⟩
    split at h
    · next j hop => exact .inl ⟨j, hop⟩
    · next a hop => exact .inr (.inl ⟨a, hop⟩)
    · next f hop => exact .inr (.inr (.inl ⟨f, hop⟩))
    · next s hop => exact .inr (.inr (.inr ⟨s, hop⟩))
    · cases h
  · cases h

theorem columns_of_project {j : Project} {k : Nat} (hop : p.op x = .project j)
    (hk : j.exprs[k]? = some (.column d)) : d ∈ (p.op x).columns := by
  rw [hop]
  exact Operator.mem_columns.mpr
    ⟨_, mem_of_getElem? hk, by simp [Expr.columns, Expr.leaves, Leaf.column?]⟩

/-! ### Plans whose nodes stand behind their inputs -/

/-- Wherever a node stands in the live order, another one stands in front of it. -/
def StandsBefore (p : Plan) (i x : NodeId) : Prop :=
  ∀ pre post, p.order = pre ++ x :: post → i ∈ pre

namespace StandsBefore

variable {i k : NodeId} (h : p.StandsBefore i x)
include h

theorem trans (hk : p.StandsBefore k i) : p.StandsBefore k x := by
  intro pre post hsplit
  obtain ⟨first, last, rfl⟩ := append_of_mem (h pre post hsplit)
  exact mem_append_left _ (hk first (last ++ x :: post) (by simpa using hsplit))

theorem mem_order (hx : x ∈ p.order) : i ∈ p.order := by
  obtain ⟨pre, post, hsplit⟩ := append_of_mem hx
  exact hsplit ▸ mem_append_left _ (h pre post hsplit)

/-- At its first place a node has not been listed. -/
theorem ne (hx : x ∈ p.order) : i ≠ x := by
  obtain ⟨pre, post, hsplit, hfirst⟩ := eq_append_cons_of_mem hx
  exact fun heq => hfirst (heq ▸ h pre post hsplit)

theorem pair (hx : x ∈ p.order) : [i, x] <+ p.order := by
  obtain ⟨pre, post, hsplit⟩ := append_of_mem hx
  exact hsplit ▸ pair_sublist_of_mem (h pre post hsplit) mem_cons_self

end StandsBefore

/-- A plan in which every node stands behind its inputs, however often it is listed, and in which
expressions refer only to columns that their node can see. Nodes may have any number of inputs. -/
structure Founded (p : Plan) : Prop where
  before : ∀ x, ∀ i ∈ p.inputs x, p.StandsBefore i x
  inScope : ∀ id ∈ p.order, ∀ c ∈ (p.op id).columns,
    ∃ columns, p.scope id = .ok columns ∧ c ∈ columns

theorem Scoped.founded (h : p.Scoped) : p.Founded where
  before x i hi pre post hsplit := by
    have hx : x ∈ p.order := hsplit ▸ mem_append_right _ mem_cons_self
    exact mem_left_of_pair (hsplit ▸ h.arranged.before x hx i hi) (hsplit ▸ h.nodup)
  inScope := h.inScope

/-- The columns of a node carry the handles that the node exposes. -/
theorem source_mem_exposed {columns : List ColumnRef} (h : p.output x = .ok columns)
    (hc : c ∈ columns) : c.source ∈ p.exposed x := by
  cases hjoin : (p.op x).isJoin with
  | true =>
      rw [output_of_join hjoin] at h
      obtain ⟨parts, hparts, h⟩ := Result.bind_eq_ok.mp h
      obtain rfl := Except.ok.inj h
      obtain ⟨part, hpart, hc⟩ := mem_flatten.mp hc
      obtain ⟨i, hi, hpart⟩ := Result.mapM_mem_right hparts hpart
      obtain ⟨w, -, hpart⟩ := Result.bind_eq_ok.mp hpart
      obtain rfl := Except.ok.inj hpart
      rw [exposed_of_join hjoin, (ColumnRef.mem_range.mp hc).1]
      exact hi
  | false =>
      rw [output_of_not_join hjoin] at h
      obtain ⟨w, -, h⟩ := Result.bind_eq_ok.mp h
      obtain rfl := Except.ok.inj h
      rw [exposed_of_not_join hjoin, (ColumnRef.mem_range.mp hc).1]
      exact mem_singleton_self x

/-- The columns that a node can see carry the handles that it reads. -/
theorem source_mem_reads {columns : List ColumnRef} (h : p.scope x = .ok columns)
    (hc : c ∈ columns) : c.source ∈ p.reads x := by
  unfold scope at h
  split at h
  · next hjoin =>
    rw [reads_of_join hjoin, ← exposed_of_join hjoin]
    exact source_mem_exposed h hc
  · next hjoin =>
    obtain ⟨i, hi, h⟩ := Result.bind_eq_ok.mp h
    rw [reads_of_input (Bool.eq_false_iff.mpr hjoin) (Node.singleInput_eq_ok.mp hi)]
    exact source_mem_exposed h hc

namespace Founded

variable (h : p.Founded)
include h

theorem reads_before {i : NodeId} (hi : i ∈ p.reads x) : p.StandsBefore i x := by
  rcases mem_inputs_of_reads hi with hi | ⟨k, hk, -, hi⟩
  · exact h.before x i hi
  · exact (h.before x k hk).trans (h.before k i hi)

/-- Traces run towards the leaves. -/
theorem forwarded_before (hc : c.source ∈ p.order) (hd : p.forwarded? c = some d) :
    p.StandsBefore d.source c.source := by
  obtain ⟨x, k⟩ := c
  obtain ⟨input, hinputs, hop⟩ := forwarded?_eq_some hd
  have hbefore : p.StandsBefore input x := h.before x input (hinputs ▸ mem_singleton_self input)
  rcases hop with ⟨j, hop⟩ | ⟨a, hop⟩ | hop
  · have hcolumn := columns_of_project hop ((forwarded?_of_project hinputs hop).mp hd)
    obtain ⟨columns, hscope, hcolumn⟩ := h.inScope x hc d hcolumn
    exact h.reads_before (source_mem_reads hscope hcolumn)
  · obtain ⟨-, rfl⟩ := (forwarded?_of_aggregate hinputs hop).mp hd
    exact hbefore
  · cases (forwarded?_of_filter_or_sort hinputs hop).symm.trans hd
    exact hbefore

theorem transGen_before (hc : c.source ∈ p.order)
    (htrace : Relation.TransGen (fun c d => p.forwarded? c = some d) c d) :
    p.StandsBefore d.source c.source := by
  induction htrace with
  | single hd => exact h.forwarded_before hc hd
  | tail _ hd ih => exact ih.trans (h.forwarded_before (ih.mem_order hc) hd)

/-- Columns that forward to each other are columns of different nodes. -/
theorem nodup_walk {walk : List ColumnRef} (hc : c.source ∈ p.order)
    (hwalk : IsChain (fun c d => p.forwarded? c = some d) (c :: walk)) :
    ((c :: walk).map ColumnRef.source).Nodup := by
  have hpairs := pairwise_transGen_of_walk hwalk
  have hlive : ∀ d ∈ c :: walk, d.source ∈ p.order := by
    intro d hd
    rcases mem_cons.mp hd with rfl | hd
    · exact hc
    · exact (h.transGen_before hc (rel_of_pairwise_cons hpairs hd)).mem_order hc
  refine pairwise_map.mpr (hpairs.imp_of_mem fun {a b} ha _ hab => ?_)
  exact ((h.transGen_before (hlive a ha) hab).ne (hlive a ha)).symm

/-- The equivalent columns are those to which a column is traced: a trace has fewer steps than the
plan has nodes, so the bound never cuts it off. -/
theorem mem_equivalentColumns_iff {k : Nat} (hx : x ∈ p.order) :
    e ∈ p.equivalentColumns x k ↔ p.TracesTo ⟨x, k⟩ e := by
  refine ⟨tracesTo_of_mem_equivalentColumns, fun htrace => ?_⟩
  obtain ⟨walk, hwalk, hlast⟩ := exists_isChain_cons_of_relationReflTransGen htrace
  have hsources := h.nodup_walk hx hwalk
  have hnodup : (⟨x, k⟩ :: walk : List ColumnRef).Nodup := hsources.of_map _
  -- Only nodes with an input forward columns, and handles from elsewhere have none.
  have hinside : ∀ i ∈ ((⟨x, k⟩ :: walk : List ColumnRef).map ColumnRef.source).dropLast,
      i.index < p.arena.size := by
    intro i hi
    rw [← map_dropLast] at hi
    obtain ⟨d, hd, rfl⟩ := mem_map.mp hi
    obtain ⟨f, hf⟩ := exists_step_of_walk hwalk hd
    obtain ⟨input, hinputs, -⟩ := forwarded?_eq_some hf
    by_contra hout
    rw [inputs_of_size_le p (Nat.le_of_not_lt hout)] at hinputs
    cases hinputs
  have hfuel := length_le_of_nodup (hsources.sublist (dropLast_sublist _)) hinside
  refine mem_followColumns_of_walk hwalk (nodup_cons.mp hnodup).2 ?_ (by simpa using hfuel) ?_
  · intro d hd heq
    exact (nodup_cons.mp hnodup).1 (mem_singleton.mp heq ▸ hd)
  · exact hlast ▸ getLast_mem (cons_ne_nil _ _)

/-- Two sorts order rows the same way if their keys do, pair by pair, on columns that meet. -/
theorem sameCollation_iff {y : NodeId} (hx : x ∈ p.order) (hy : y ∈ p.order) :
    p.sameCollation x y = .ok true ↔ ∃ s t, p.op x = .sort s ∧ p.op y = .sort t ∧
      Forall₂ (fun k l => k.direction = l.direction ∧ k.nulls = l.nulls ∧
        p.Meet ⟨x, k.column⟩ ⟨y, l.column⟩) s.collation t.collation := by
  have hkey : ∀ k l, p.sameKey x y k l = true ↔ k.direction = l.direction ∧ k.nulls = l.nulls ∧
      p.Meet ⟨x, k.column⟩ ⟨y, l.column⟩ := fun k l => by
    simp only [sameKey, Bool.and_eq_true, beq_iff_eq, any_eq_true, contains_iff_mem, and_assoc,
      h.mem_equivalentColumns_iff hx, h.mem_equivalentColumns_iff hy]
    rfl
  constructor
  · intro hsame
    unfold sameCollation at hsame
    split at hsame
    · next s t hs ht =>
      obtain ⟨hlength, hkeys⟩ := Bool.and_eq_true_iff.mp (Except.ok.inj hsame)
      exact ⟨s, t, hs, ht, forall₂_iff_zip.mpr ⟨beq_iff_eq.mp hlength, fun {k l} hkl =>
        (hkey k l).mp (all_eq_true.mp hkeys (k, l) hkl)⟩⟩
    · cases hsame
  · rintro ⟨s, t, hs, ht, hkeys⟩
    obtain ⟨hlength, hkeys⟩ := forall₂_iff_zip.mp hkeys
    rw [sameCollation, hs, ht]
    refine congrArg Except.ok (Bool.and_eq_true_iff.mpr ⟨beq_iff_eq.mpr hlength, ?_⟩)
    exact all_eq_true.mpr fun kl hkl => (hkey kl.1 kl.2).mpr (hkeys hkl)

end Founded

/-! ### Scoped plans -/

/-- Steps to places further up in a list lead further up. -/
theorem eq_or_before_of_reflTransGen {α : Type} {R : α → α → Prop} (place : α → NodeId)
    {l : List NodeId} (hl : l.Nodup) (hR : ∀ a b, place a ∈ l → R a b → [place b, place a] <+ l)
    {a b : α} (ha : place a ∈ l) (h : Relation.ReflTransGen R a b) :
    a = b ∨ [place b, place a] <+ l := by
  induction h with
  | refl => exact .inl rfl
  | tail _ hstep ih =>
      right
      rcases ih with rfl | hbefore
      · exact hR _ _ ha hstep
      · exact pair_sublist_trans hl (hR _ _ (mem_left hbefore) hstep) hbefore

namespace Scoped

variable (h : p.Scoped)
include h

theorem reads_before (hx : x ∈ p.order) {i : NodeId} (hi : i ∈ p.reads x) : [i, x] <+ p.order :=
  (h.founded.reads_before hi).pair hx

theorem forwarded_before (hc : c.source ∈ p.order) (hd : p.forwarded? c = some d) :
    [d.source, c.source] <+ p.order :=
  (h.founded.forwarded_before hc hd).pair hc

theorem eq_or_before (hc : c.source ∈ p.order) (htrace : p.TracesTo c e) :
    c = e ∨ [e.source, c.source] <+ p.order :=
  eq_or_before_of_reflTransGen ColumnRef.source h.nodup (fun _ _ => h.forwarded_before) hc htrace

theorem mem_equivalentColumns_iff {k : Nat} (hx : x ∈ p.order) :
    e ∈ p.equivalentColumns x k ↔ p.TracesTo ⟨x, k⟩ e :=
  h.founded.mem_equivalentColumns_iff hx

theorem sameCollation_iff {y : NodeId} (hx : x ∈ p.order) (hy : y ∈ p.order) :
    p.sameCollation x y = .ok true ↔ ∃ s t, p.op x = .sort s ∧ p.op y = .sort t ∧
      Forall₂ (fun k l => k.direction = l.direction ∧ k.nulls = l.nulls ∧
        p.Meet ⟨x, k.column⟩ ⟨y, l.column⟩) s.collation t.collation :=
  h.founded.sameCollation_iff hx hy

/-- Columns of different inputs of a join are not traced to a common one. -/
theorem not_meet_of_sidesApart (hapart : p.SidesApart) (hx : x ∈ p.order)
    (hjoin : (p.op x).isJoin = true) (hc : c ∈ p.columnsOf (p.inputs x))
    (hd : d ∈ p.columnsOf (p.inputs x)) (hne : c.source ≠ d.source) : ¬p.Meet c d := by
  obtain ⟨hc, hcCount⟩ := Plan.mem_columnsOf.mp hc
  obtain ⟨hd, hdCount⟩ := Plan.mem_columnsOf.mp hd
  have hcLive := h.arranged.mem_of_input hx hc
  have hdLive := h.arranged.mem_of_input hx hd
  rintro ⟨e, hce, hde⟩
  rw [← h.mem_equivalentColumns_iff hcLive] at hce
  rw [← h.mem_equivalentColumns_iff hdLive] at hde
  exact (hapart x hx hjoin).forall hc hd hne _ hcCount _ hdCount e hce hde

/-- Different columns of a node are traced to a common one over the columns that they forward. -/
theorem forwards_of_meet {a b : Nat} (hx : x ∈ p.order) (hmeet : p.Meet ⟨x, a⟩ ⟨x, b⟩)
    (hne : a ≠ b) : ∃ c d, p.forwarded? ⟨x, a⟩ = some c ∧ p.forwarded? ⟨x, b⟩ = some d ∧
      p.Meet c d := by
  obtain ⟨e, ha, hb⟩ := hmeet
  have hnever : ∀ {k l : Nat}, k ≠ l → ¬p.TracesTo ⟨x, k⟩ ⟨x, l⟩ := by
    intro k l hkl htrace
    rcases h.eq_or_before hx htrace with heq | hbefore
    · exact hkl (congrArg ColumnRef.index heq)
    · exact ne_of_pair h.nodup hbefore rfl
  rcases Relation.ReflTransGen.cases_head ha with rfl | ⟨c, hc, hac⟩
  · exact absurd hb (hnever hne.symm)
  rcases Relation.ReflTransGen.cases_head hb with rfl | ⟨d, hd, hbd⟩
  · exact absurd ha (hnever hne)
  exact ⟨c, d, hc, hd, e, hac, hbd⟩

end Scoped

end Plan

end QueryPlan
