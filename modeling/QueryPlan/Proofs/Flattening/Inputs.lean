import QueryPlan.Proofs.Flattening.Success
/-!
# QueryPlan.Proofs.Flattening.Inputs

**No input of a join is lost.** The node for a chain reads all relations that the chain read
(`NewNode.fits`), so what was reachable from a node is reachable from the node that stands in its
place (`Flattening.reaches`). A chain is met a second time only if an inner join under a filter has
another reader: then the join may be flattened first, and the filter finds no join any more. If
every such join belongs to its filter (`Plan.JoinsBelongToFilters`), all chains are flattened as they
were found (`Plan.flattenJoins_keeps_inputs`).
-/

namespace QueryPlan

open List

/-- A left-deep join with a kind and a condition for each input after the first, of which there is
at least one. The levels with a condition of their own are the left joins. -/
structure LeftDeepJoin.Fits (j : LeftDeepJoin) (inputs : List NodeId) : Prop where
  two_le : 2 ≤ inputs.length
  length_kinds : j.kinds.length + 1 = inputs.length
  outer_eq : j.outer.map Option.isSome = j.kinds.map fun kind => decide (kind = .left)

/-- Other references do not change whether a left-deep join fits its inputs. -/
theorem LeftDeepJoin.Fits.map {j : LeftDeepJoin} {inputs inputs' : List NodeId}
    (h : j.Fits inputs) (hlength : inputs'.length = inputs.length) (g : Expr → Expr) :
    LeftDeepJoin.Fits { j with condition := g j.condition, outer := j.outer.map (Option.map g) }
      inputs' where
  two_le := hlength ▸ h.two_le
  length_kinds := hlength ▸ h.length_kinds
  outer_eq := by
    rw [← h.outer_eq, map_map]
    exact map_congr_left fun o _ => Option.isSome_map

namespace Plan

variable {p q r : Plan} {root : NodeId}

/-- A node is met on a walk along inputs. -/
inductive Reaches (p : Plan) : NodeId → NodeId → Prop
  | refl (x : NodeId) : Reaches p x x
  | step {x i y : NodeId} : i ∈ p.inputs x → Reaches p i y → Reaches p x y

/-- Walks do not leave nodes that hold their inputs. -/
theorem Reaches.mem_of_closed {nodes : List NodeId} {x y : NodeId} (h : p.Reaches x y)
    (hclosed : ∀ n ∈ nodes, ∀ i ∈ p.inputs n, i ∈ nodes) (hx : x ∈ nodes) : y ∈ nodes := by
  induction h with
  | refl => exact hx
  | step hi _ ih => exact ih (hclosed _ hx _ hi)

/-! ### One chain -/

theorem JoinChain.exists_reads_leftmost {top leftmost : NodeId} {joins : List NodeId}
    (h : p.JoinChain top joins leftmost) : ∃ x ∈ joins, leftmost ∈ p.inputs x := by
  induction h with
  | single hleft => exact ⟨_, mem_singleton_self _, mem_of_head? hleft⟩
  | more _ _ _ _ ih =>
      obtain ⟨x, hx, hread⟩ := ih
      exact ⟨x, mem_cons_of_mem _ hx, hread⟩

theorem Leveled.outer_eq {top leftmost : NodeId} {joins : List NodeId} {levels : ChainLevels}
    (h : p.Leveled leftmost top joins levels) :
    levels.outer.map Option.isSome = levels.kinds.map fun kind => decide (kind = .left) := by
  induction h with
  | none => rfl
  | @push _ _ _ j _ _ _ _ _ ih => cases hkind : j.kind <;> simp [ChainLevels.push, hkind, ih]

namespace NewNode

variable (f : NewNode p root)

/-- The nodes that the new node replaces. -/
theorem mem_olds {x : NodeId} : x ∈ f.filter.toList ++ f.joins ↔ x = f.top ∨ x ∈ f.below := by
  rw [f.olds_eq, mem_cons]
  rfl

/-- A node of the chain reads what the new node reads. -/
theorem exists_reads {i : NodeId} (hi : i ∈ f.inputs) :
    ∃ x, (x = f.top ∨ x ∈ f.below) ∧ i ∈ p.inputs x := by
  obtain ⟨levels, -, hlevels, hinputs, -⟩ := flattenChain_eq_ok f.flattenChain_eq
  have hjoins : ∀ x ∈ f.joins, x = f.top ∨ x ∈ f.below := fun x hx =>
    f.mem_olds.mp (mem_append_right _ hx)
  rw [hinputs] at hi
  rcases mem_cons.mp hi with rfl | hi
  · obtain ⟨x, hx, hread⟩ := f.chain.chain.exists_reads_leftmost
    exact ⟨x, hjoins x hx, hread⟩
  · obtain ⟨x, hx, hread⟩ := right_of_mem_levels hlevels i hi
    exact ⟨x, hjoins x (mem_reverse.mp hx), mem_of_getElem? hread⟩

section

variable (hp : p.WellFormed) (hroot : root ∈ p.order) (hjoin : p.isBinaryJoin f.topJoin = true)
include hp hroot hjoin

/-- A node of the chain reads the next one, or what the new node reads. -/
theorem mem_inputs_of_reads {x i : NodeId} (hx : x = f.top ∨ x ∈ f.below) (hi : i ∈ p.inputs x) :
    (i = f.top ∨ i ∈ f.below) ∨ i ∈ f.inputs := by
  obtain ⟨levels, hlevels⟩ := f.exists_madeOf hp hroot hjoin
  rcases mem_append.mp (f.mem_olds.mpr hx) with hfilter | hx
  · obtain ⟨rfl, -, hinputs, -⟩ := f.chain.of_filter (Option.mem_toList.mp hfilter)
    obtain ⟨below, hbelow⟩ := f.chain.chain.exists_cons
    rw [hinputs, mem_singleton] at hi
    exact .inl (f.mem_olds.mp (mem_append_right _ (hi ▸ hbelow ▸ mem_cons_self)))
  · rcases hlevels.leveled.mem_of_inputs hx hi with hi | hi
    · exact .inl (f.mem_olds.mp (mem_append_right _ hi))
    · exact .inr (hlevels.inputs_eq ▸ hi)

theorem fits : f.op.Fits f.inputs := by
  obtain ⟨levels, hlevels⟩ := f.exists_madeOf hp hroot hjoin
  obtain ⟨below, hbelow⟩ := f.chain.chain.exists_cons
  have hlength := hlevels.leveled.length_inputs
  have hkinds := hlevels.leveled.length_kinds
  rw [hbelow, length_cons] at hlength
  refine ⟨?_, ?_, ?_⟩
  · rw [hlevels.inputs_eq, length_cons]
    omega
  · rw [hlevels.inputs_eq, hlevels.kinds_eq, length_cons, hkinds]
  · rw [hlevels.outer_eq, hlevels.kinds_eq, ← hlevels.leveled.outer_eq, map_map]
    exact map_congr_left fun o _ => Option.isSome_map

omit hp hroot in
/-- A node of the chain filters or joins. -/
theorem isFilter_or_isBinaryJoin {x : NodeId} (hx : x = f.top ∨ x ∈ f.below) :
    p.isFilter x = true ∨ p.isBinaryJoin x = true := by
  rcases mem_append.mp (f.mem_olds.mpr hx) with hfilter | hx
  · obtain ⟨rfl, hop, -⟩ := f.chain.of_filter (Option.mem_toList.mp hfilter)
    exact .inl hop
  · exact .inr (f.chain.isBinaryJoin hjoin x hx)

end

/-- What stands in the place of a node that the plan lists. -/
def slot (x : NodeId) : Option NodeId :=
  if x = f.top then some p.nextId else if x ∈ f.below then none else some x

end NewNode

namespace Flattening

variable (f : Flattening p root q)

include f in
theorem size_eq : q.arena.size = p.arena.size + 1 := by
  rw [f.retires.size_eq, f.rewires.size_eq, f.shape.size_eq, size_alloc]

section

variable (hp : p.WellFormed) (hroot : root ∈ p.order)
include hp hroot

theorem order_eq_filterMap : q.order = p.order.filterMap f.slot := by
  have hordered := hp.arranged.toOrdered
  have htop : ∀ x ∈ f.pre ++ f.post, x ≠ f.top := fun x hx h => f.top_not_mem hordered (h ▸ hx)
  have hpre : f.pre.filterMap f.slot = f.pre.filter (· ∉ f.below) := by
    rw [← filterMap_eq_filter]
    refine filterMap_congr fun x hx => ?_
    rw [NewNode.slot, if_neg (htop x (mem_append_left _ hx))]
    by_cases hbelow : x ∈ f.below <;> simp [hbelow, Option.guard]
  have hpost : f.post.filterMap f.slot = f.post := by
    refine (filterMap_congr fun x hx => ?_).trans filterMap_some
    rw [NewNode.slot, if_neg (htop x (mem_append_right _ hx)), if_neg fun hbelow => ?_]
    exact (nodup_append.mp (f.nodup hordered)).2.2 x (f.below_before hordered hroot hbelow) x
      (mem_cons_of_mem _ hx) rfl
  rw [f.order_result hordered hroot, f.order_eq_top, filterMap_append, filterMap_cons, hpre, hpost,
    NewNode.slot, if_pos rfl]

variable (hjoin : p.isBinaryJoin f.topJoin = true)
include hjoin

/-- What is reachable outside of the chain stays reachable, from the new node if it was from the
chain. -/
theorem reaches {x y : NodeId} (hreach : p.Reaches x y) (hx : x ∈ p.order)
    (hy : ¬(y = f.top ∨ y ∈ f.below)) :
    q.Reaches (if x = f.top ∨ x ∈ f.below then p.nextId else x) y := by
  have hordered := hp.arranged.toOrdered
  induction hreach with
  | refl => rw [if_neg hy]; exact .refl _
  | @step x i y hi _ ih =>
      have ih := ih (hordered.mem_of_input hx hi) hy
      by_cases hold : x = f.top ∨ x ∈ f.below
      · rw [if_pos hold]
        rcases f.mem_inputs_of_reads hp hroot hjoin hold hi with hi | hi
        · rwa [if_pos hi] at ih
        · obtain ⟨hpre, hbelow⟩ := f.inputs_before hordered hroot hi
          have htop : i ≠ f.top := fun h =>
            f.top_not_mem hordered (h ▸ mem_append_left _ hpre)
          rw [if_neg (by simp [htop, hbelow])] at ih
          exact .step (f.inputs_nextId hordered ▸ hi) ih
      · rw [if_neg hold]
        obtain ⟨htop, hleft⟩ := not_or.mp hold
        have hx := (f.mem_order.mp hx).resolve_left htop
        have hbelow : i ∉ f.below := fun h => hleft (f.mem_below_of_reads hordered hroot hx h hi)
        have hread : f.top.replaced p.nextId i ∈ q.inputs x := by
          rw [f.inputs_eq hordered hx]
          exact mem_map_of_mem hi
        refine .step hread ?_
        simpa [NodeId.replaced, hbelow] using ih

end

end Flattening

/-! ### What flattening keeps -/

theorem isFilter_mapExprs {x y : NodeId} {g : Expr → Expr} (h : q.op x = (p.op y).mapExprs g) :
    q.isFilter x = p.isFilter y := by
  unfold isFilter
  rw [h]
  cases p.op y <;> rfl

theorem isBinaryJoin_mapExprs {x y : NodeId} {g : Expr → Expr}
    (h : q.op x = (p.op y).mapExprs g) : q.isBinaryJoin x = p.isBinaryJoin y := by
  unfold isBinaryJoin
  rw [h]
  cases p.op y <;> rfl

/-- Nodes of a plan have given way to left-deep joins, and every node that is left stands in the
place of one of the plan. -/
structure Flattened (p q : Plan) (slot : NodeId → Option NodeId) : Prop where
  order_eq : q.order = p.order.filterMap slot
  columnCount_eq : ∀ t ∈ p.order, ∀ x, slot t = some x → q.columnCount x = p.columnCount t
  /-- A node is left, with other references, or a left-deep join stands for a filter or a join. -/
  op_eq : ∀ t ∈ p.order, ∀ x, slot t = some x →
    (x = t ∧ (q.inputs x).length = (p.inputs t).length ∧
      ∃ φ, q.op x = (p.op t).mapExprs (Expr.mapColumns φ)) ∨
    ((p.isFilter t = true ∨ p.isBinaryJoin t = true) ∧
      ∃ j, q.op x = .leftDeepJoin j ∧ j.Fits (q.inputs x))
  slot_leaf : ∀ t ∈ p.order, (p.op t).arity = .exactly 0 → slot t = some t
  root_eq : ∀ t, p.root? = some t → ∃ x, slot t = some x ∧ q.root? = some x
  /-- No relation is lost. -/
  reaches : ∀ t ∈ p.order, ∀ x, slot t = some x → ∀ y, p.Reaches t y →
    (p.op y).arity = .exactly 0 → q.Reaches x y

theorem Ordered.mem_of_reaches {x y : NodeId} (hp : p.Ordered p.order) (hx : x ∈ p.order)
    (h : p.Reaches x y) : y ∈ p.order :=
  h.mem_of_closed (fun _ hn _ => hp.mem_of_input hn) hx

namespace Flattened

variable {slot slot' : NodeId → Option NodeId}

theorem refl (p : Plan) : Flattened p p some where
  order_eq := filterMap_some.symm
  columnCount_eq _ _ _ hx := by cases hx; rfl
  op_eq t _ _ hx := by
    cases hx
    refine .inl ⟨rfl, rfl, fun c => c, ?_⟩
    rw [funext Expr.mapColumns_id, Operator.mapExprs_id]
  slot_leaf _ _ _ := rfl
  root_eq t ht := ⟨t, rfl, ht⟩
  reaches _ _ _ hx _ hy _ := by cases hx; exact hy

theorem mem_order (h : Flattened p q slot) {t x : NodeId} (ht : t ∈ p.order)
    (hx : slot t = some x) : x ∈ q.order := by
  rw [h.order_eq]
  exact mem_filterMap.mpr ⟨t, ht, hx⟩

/-- Leaves stay as they are. -/
theorem arity_leaf (h : Flattened p q slot) {t : NodeId} (ht : t ∈ p.order)
    (hleaf : (p.op t).arity = .exactly 0) : t ∈ q.order ∧ (q.op t).arity = .exactly 0 := by
  have hslot := h.slot_leaf t ht hleaf
  refine ⟨h.mem_order ht hslot, ?_⟩
  rcases h.op_eq t ht t hslot with ⟨-, -, φ, hop⟩ | ⟨hop | hop, -⟩
  · rw [hop, Operator.arity_mapExprs, hleaf]
  · unfold isFilter at hop
    split at hop <;> simp_all [Operator.arity]
  · unfold isBinaryJoin at hop
    split at hop <;> simp_all [Operator.arity]

theorem trans (h : Flattened p r slot) (h' : Flattened r q slot') (hp : p.Ordered p.order) :
    Flattened p q fun t => (slot t).bind slot' where
  order_eq := by rw [h'.order_eq, h.order_eq, filterMap_filterMap]
  columnCount_eq t ht x hx := by
    obtain ⟨y, hy, hx⟩ := Option.bind_eq_some_iff.mp hx
    rw [h'.columnCount_eq y (h.mem_order ht hy) x hx, h.columnCount_eq t ht y hy]
  op_eq t ht x hx := by
    obtain ⟨y, hy, hyx⟩ := Option.bind_eq_some_iff.mp hx
    rcases h.op_eq t ht y hy with ⟨rfl, hlength, φ, hop⟩ | ⟨hkind, j, hop, hfits⟩
    all_goals rcases h'.op_eq _ (h.mem_order ht hy) x hyx with
      ⟨rfl, hlength', ψ, hop'⟩ | ⟨hkind', j', hop', hfits'⟩
    · refine .inl ⟨rfl, hlength'.trans hlength, fun c => ψ (φ c), ?_⟩
      rw [hop', hop, Operator.mapExprs_mapExprs]
      exact Operator.mapExprs_congr fun e _ => Expr.mapColumns_mapColumns _ _ e
    · rw [isFilter_mapExprs hop, isBinaryJoin_mapExprs hop] at hkind'
      exact .inr ⟨hkind', j', hop', hfits'⟩
    · rw [hop] at hop'
      exact .inr ⟨hkind, _, hop', hfits.map hlength' _⟩
    · unfold isFilter isBinaryJoin at hkind'
      rw [hop] at hkind'
      simp at hkind'
  slot_leaf t ht hleaf := by
    obtain ⟨hlive, hleaf'⟩ := h.arity_leaf ht hleaf
    rw [h.slot_leaf t ht hleaf, Option.bind_some, h'.slot_leaf t hlive hleaf']
  root_eq t ht := by
    obtain ⟨y, hy, hroot⟩ := h.root_eq t ht
    obtain ⟨x, hx, hroot'⟩ := h'.root_eq y hroot
    exact ⟨x, by rw [hy, Option.bind_some, hx], hroot'⟩
  reaches t ht x hx y hreach hleaf := by
    obtain ⟨z, hz, hx⟩ := Option.bind_eq_some_iff.mp hx
    have hlive := hp.mem_of_reaches ht hreach
    exact h'.reaches z (h.mem_order ht hz) x hx y (h.reaches t ht z hz y hreach hleaf)
      (h.arity_leaf hlive hleaf).2

end Flattened

namespace Flattening

variable (f : Flattening p root q) (hp : p.WellFormed) (hroot : root ∈ p.order)
  (hjoin : p.isBinaryJoin f.topJoin = true)
include hp hroot hjoin

omit hp hroot hjoin in
/-- What stands in the place of a node is left, or is the new node. -/
theorem slot_cases {t x : NodeId} (ht : t ∈ p.order) (hx : f.slot t = some x) :
    (t = f.top ∧ x = p.nextId) ∨ (x = t ∧ t ∈ f.pre ++ f.post ∧ t ∉ f.below) := by
  unfold NewNode.slot at hx
  split at hx
  · next htop => exact .inl ⟨htop, (Option.some.inj hx).symm⟩
  · next htop =>
    split at hx
    · cases hx
    · next hbelow =>
      cases hx
      exact .inr ⟨rfl, (f.mem_order.mp ht).resolve_left htop, hbelow⟩

omit hp hroot in
/-- Leaves do not belong to the chain. -/
theorem leaf_not_mem {t : NodeId} (hleaf : (p.op t).arity = .exactly 0) :
    ¬(t = f.top ∨ t ∈ f.below) := by
  intro hold
  rcases f.isFilter_or_isBinaryJoin hjoin hold with hop | hop
  · obtain ⟨g, hg⟩ := isFilter_iff.mp hop
    rw [hg] at hleaf
    cases hleaf
  · unfold isBinaryJoin at hop
    split at hop <;> simp_all [Operator.arity]

omit hjoin in
theorem root_eq_slot {t : NodeId} (ht : p.root? = some t) :
    ∃ x, f.slot t = some x ∧ q.root? = some x := by
  have hordered := hp.arranged.toOrdered
  rw [root?, f.order_eq_top] at ht
  rw [root?, f.order_result hordered hroot]
  rcases eq_nil_or_concat' f.post with hpost | ⟨front, last, hpost⟩
  · rw [hpost, getLast?_concat] at ht ⊢
    exact ⟨p.nextId, by rw [← Option.some.inj ht, NewNode.slot, if_pos rfl], rfl⟩
  · rw [hpost, ← cons_append, ← append_assoc, getLast?_concat] at ht ⊢
    cases ht
    have hlast : t ∈ f.post := hpost ▸ mem_append_right _ (mem_singleton_self t)
    have hnot : t ≠ f.top := fun h => f.top_not_mem hordered (h ▸ mem_append_right _ hlast)
    have hbelow : t ∉ f.below := fun h => (nodup_append.mp (f.nodup hordered)).2.2 t
      (f.below_before hordered hroot h) t (mem_cons_of_mem _ hlast) rfl
    exact ⟨t, by rw [NewNode.slot, if_neg hnot, if_neg hbelow], rfl⟩

/-- Flattening one chain. -/
theorem flattened : Flattened p q f.slot where
  order_eq := f.order_eq_filterMap hp hroot
  columnCount_eq t ht x hx := by
    rcases f.slot_cases ht hx with ⟨rfl, rfl⟩ | ⟨rfl, -, -⟩
    · exact f.columnCount_nextId hp hroot hjoin
    · exact f.columnCount_eq hp hroot hjoin ht
  op_eq t ht x hx := by
    have hordered := hp.arranged.toOrdered
    rcases f.slot_cases ht hx with ⟨rfl, rfl⟩ | ⟨rfl, hmem, hleft⟩
    · refine .inr ⟨f.isFilter_or_isBinaryJoin hjoin (.inl rfl), f.op, f.op_nextId hp hroot, ?_⟩
      exact f.inputs_nextId hordered ▸ f.fits hp hroot hjoin
    · exact .inl ⟨rfl, by rw [f.inputs_eq hordered hmem, length_map], _,
        f.op_eq hp hroot hjoin hmem hleft⟩
  slot_leaf t _ hleaf := by
    obtain ⟨htop, hbelow⟩ := not_or.mp (f.leaf_not_mem hjoin hleaf)
    rw [NewNode.slot, if_neg htop, if_neg hbelow]
  root_eq t ht := f.root_eq_slot hp hroot ht
  reaches t ht x hx y hreach hleaf := by
    have hreach := f.reaches hp hroot hjoin hreach ht (f.leaf_not_mem hjoin hleaf)
    rcases f.slot_cases ht hx with ⟨rfl, rfl⟩ | ⟨rfl, hmem, hleft⟩
    · rwa [if_pos (.inl rfl)] at hreach
    · have htop : x ≠ f.top := fun h => f.top_not_mem hp.arranged.toOrdered (h ▸ hmem)
      rwa [if_neg (by simp [htop, hleft])] at hreach

end Flattening

/-! ### All chains -/

/-- Whether a node is an inner join. -/
def isInnerJoin (p : Plan) (id : NodeId) : Bool :=
  match p.op id with
  | .join j => j.kind == .inner
  | _ => false

/-- An inner join right below a filter is read by nothing else. -/
def JoinsBelongToFilters (p : Plan) : Prop :=
  ∀ x ∈ p.order, p.isFilter x = true → ∀ i ∈ p.inputs x, p.isInnerJoin i = true →
    p.useCount i = 1

instance (p : Plan) : Decidable p.JoinsBelongToFilters :=
  inferInstanceAs (Decidable (∀ x ∈ p.order, _ → ∀ i ∈ p.inputs x, _ → _))

/-- A node that heads a chain: a join, or a filter over a join that nothing else reads. The join
heads none itself, so it stays until it is the turn of the filter. -/
def Heads (p : Plan) (roots : List NodeId) (x : NodeId) : Prop :=
  p.isBinaryJoin x = true ∨ (p.isFilter x = true ∧ ∃ i, p.inputs x = [i] ∧
    p.isBinaryJoin i = true ∧ i ∉ roots ∧ ∀ n ∈ p.order, i ∈ p.inputs n → n = x)

theorem joinRoot?_eq_some {n x : NodeId} (h : p.joinRoot? n = some x) :
    ∃ i, p.inputs n = [i] ∧ p.isBinaryJoin i = true ∧
      ((x = n ∧ p.isFilter n = true ∧ p.isInnerJoin i = true) ∨ x = i) := by
  unfold joinRoot? at h
  split at h
  · next i hinputs =>
    split at h
    · next j hop =>
      refine ⟨i, hinputs, by rw [isBinaryJoin, hop], ?_⟩
      split at h
      · next g hg hkind =>
        exact .inl ⟨(Option.some.inj h).symm, isFilter_iff.mpr ⟨_, hg⟩,
          by simp [isInnerJoin, hop, hkind]⟩
      · exact .inr (Option.some.inj h).symm
    · cases h
  · cases h

theorem Ordered.mem_of_joinRoots (hp : p.Ordered p.order) {x : NodeId} (hx : x ∈ p.joinRoots) :
    x ∈ p.order := by
  obtain ⟨n, hn, hroot⟩ := mem_filterMap.mp hx
  obtain ⟨i, hinputs, -, ⟨rfl, -⟩ | rfl⟩ := joinRoot?_eq_some hroot
  · exact hn
  · exact hp.mem_of_input hn (hinputs ▸ mem_singleton_self _)

theorem isBinaryJoin_of_isFilter {x : NodeId} (h : p.isFilter x = true) :
    p.isBinaryJoin x = false := by
  obtain ⟨g, hg⟩ := isFilter_iff.mp h
  rw [isBinaryJoin, hg]

/-- If inner joins belong to the filters right above them, the roots head chains. -/
theorem JoinsBelongToFilters.heads (h : p.JoinsBelongToFilters) {x : NodeId}
    (hx : x ∈ p.joinRoots) : p.Heads p.joinRoots x := by
  obtain ⟨n, hn, hroot⟩ := mem_filterMap.mp hx
  obtain ⟨i, hinputs, hjoin, ⟨rfl, hfilter, hinner⟩ | rfl⟩ := joinRoot?_eq_some hroot
  · have hread : i ∈ p.inputs x := hinputs ▸ mem_singleton_self i
    have huse := h x hn hfilter i hread hinner
    have honly : ∀ m ∈ p.order, i ∈ p.inputs m → m = x := fun m hm hmread =>
      reader_unique huse hm hmread hn hread
    refine .inr ⟨hfilter, i, hinputs, hjoin, fun hmem => ?_, honly⟩
    obtain ⟨m, hm, hroot'⟩ := mem_filterMap.mp hmem
    obtain ⟨k, hinputs', -, ⟨rfl, hfilter', -⟩ | rfl⟩ := joinRoot?_eq_some hroot'
    · rw [isBinaryJoin_of_isFilter hfilter'] at hjoin
      cases hjoin
    · rw [honly m hm (hinputs' ▸ mem_singleton_self i), hroot] at hroot'
      rw [← Option.some.inj hroot', isBinaryJoin_of_isFilter hfilter] at hjoin
      cases hjoin
  · exact .inl hjoin

namespace Heads

variable {roots : List NodeId} {x : NodeId}

/-- There is a plain join at the top of the chain. -/
theorem exists_top (h : p.Heads roots x) : ∃ filter topJoin,
    p.chainTop x = .ok (filter, topJoin) ∧ p.isBinaryJoin topJoin = true := by
  rcases h with hjoin | ⟨hfilter, i, hinputs, hjoin, -⟩
  · have hnot : p.isFilter x = false := by
      by_contra hfilter
      rw [isBinaryJoin_of_isFilter (by simpa using hfilter)] at hjoin
      cases hjoin
    exact ⟨none, x, by rw [chainTop, hnot, if_neg Bool.false_ne_true], hjoin⟩
  · refine ⟨if p.useCount i == 1 then some x else none, i, ?_, hjoin⟩
    rw [chainTop, if_pos hfilter]
    exact Result.bind_ok (Node.singleInput_eq_ok.mpr hinputs)

/-- Flattening another chain leaves the chain of a node as it is. -/
theorem flatten (h : p.Heads roots x) (f : Flattening p root q) (hp : p.WellFormed)
    (hroot : root ∈ p.order) (hjoin : p.isBinaryJoin f.topJoin = true) (hroots : root ∈ roots)
    (hx : x ∈ p.order) (hne : x ≠ root) (hlive : x ∈ q.order) : q.Heads roots x := by
  have hordered := hp.arranged.toOrdered
  have hnew : x ≠ p.nextId := Plan.ne_nextId (hp.inArena hx)
  obtain ⟨hmem, hleft⟩ := f.mem_of_mem_result hp hroot hlive hnew
  have hop := f.op_eq hp hroot hjoin hmem hleft
  rcases h with hbinary | ⟨hfilter, i, hinputs, hbinary, hnot, honly⟩
  · exact .inl ((isBinaryJoin_mapExprs hop).trans hbinary)
  have hread : i ∈ p.inputs x := hinputs ▸ mem_singleton_self i
  have hi : i ∈ p.order := hordered.mem_of_input hx hread
  have hiBelow : i ∉ f.below := fun h => hleft (f.mem_below_of_reads hordered hroot hmem h hread)
  -- The join is not the top of the other chain: only the filter reads it, and it is no root.
  have hiTop : i ≠ f.top := by
    rintro rfl
    rcases chainTop_eq_ok f.chain.top with ⟨hrootFilter, hrootInputs, hfilterEq⟩ | ⟨-, hnone, htop⟩
    · cases hsome : f.filter with
      | none =>
          have htop : f.top = f.topJoin := by rw [NewNode.top, hsome, Option.getD_none]
          exact hne (honly root hroot (by rw [hrootInputs, htop]; exact mem_singleton_self _)).symm
      | some above =>
          have htop : f.top = above := by rw [NewNode.top, hsome, Option.getD_some]
          obtain ⟨habove, -⟩ := f.chain.of_filter hsome
          rw [htop, habove, isBinaryJoin_of_isFilter hrootFilter] at hbinary
          cases hbinary
    · exact hnot (by rw [NewNode.top, hnone, Option.getD_none, htop]; exact hroots)
  have hiLeft := (f.mem_order.mp hi).resolve_left hiTop
  refine .inr ⟨(isFilter_mapExprs hop).trans hfilter, i, ?_, ?_, hnot, fun n hn hnread => ?_⟩
  · rw [f.inputs_eq hordered hmem, hinputs, map_singleton, NodeId.replaced_of_ne _ hiTop]
  · exact (isBinaryJoin_mapExprs (f.op_eq hp hroot hjoin hiLeft hiBelow)).trans hbinary
  · by_cases hnNew : n = p.nextId
    · rw [hnNew, f.inputs_nextId hordered] at hnread
      obtain ⟨y, hy, hyread⟩ := f.exists_reads hnread
      have hyLive := f.chain.subset hordered hroot (f.mem_olds.mpr hy)
      rw [honly y hyLive hyread] at hy
      rcases hy with rfl | hy
      · exact absurd hmem (f.top_not_mem hordered)
      · exact absurd hy hleft
    · have hnLeft := (f.mem_of_mem_result hp hroot hn hnNew).1
      rw [f.inputs_eq hordered hnLeft] at hnread
      obtain ⟨k, hk, hki⟩ := mem_map.mp hnread
      have hiNew : i ≠ p.nextId := Plan.ne_nextId (hp.inArena hi)
      have hki : k = i := by
        unfold NodeId.replaced at hki
        grind
      exact honly n (f.mem_order.mpr (.inr hnLeft)) (hki ▸ hk)

end Heads

/-- The chains below some roots are still as they were found, after others were flattened. -/
structure Found (p : Plan) (done : List NodeId) (r : Plan) : Prop where
  wellFormed : r.WellFormed
  size_le : p.arena.size ≤ r.arena.size
  heads : ∀ x ∈ p.joinRoots, x ∉ done → x ∈ r.order → r.Heads p.joinRoots x

theorem JoinsBelongToFilters.found (h : p.JoinsBelongToFilters) (hp : p.WellFormed) :
    Found p [] p :=
  ⟨hp, Nat.le_refl _, fun _ hx _ _ => h.heads hx⟩

namespace Found

variable {r s : Plan} {done rest : List NodeId}

theorem skip (h : Found p done r) : Found p (done ++ [root]) r :=
  ⟨h.wellFormed, h.size_le, fun x hx hdone => h.heads x hx fun hmem =>
    hdone (mem_append_left _ hmem)⟩

/-- There is a plain join at the top of the chain whose turn it is. -/
theorem exists_top (h : Found p done r) (hsplit : p.joinRoots.eraseDups = done ++ root :: rest)
    (hroot : root ∈ r.order) : ∃ filter topJoin,
      r.chainTop root = .ok (filter, topJoin) ∧ r.isBinaryJoin topJoin = true := by
  have hnodup : (done ++ root :: rest).Nodup := hsplit ▸ nodup_eraseDups _
  exact (h.heads root (mem_eraseDups.mp (hsplit ▸ by simp)) (fun hmem =>
    (nodup_append.mp hnodup).2.2 root hmem root mem_cons_self rfl) hroot).exists_top

/-- To flatten a chain leaves the others as they were found. -/
theorem flatten (h : Found p done r) (hp : p.WellFormed) (hrootMem : root ∈ p.joinRoots)
    (f : Flattening r root s) (hroot : root ∈ r.order) (hjoin : r.isBinaryJoin f.topJoin = true) :
    Found p (done ++ [root]) s where
  wellFormed := f.wellFormed h.wellFormed hroot hjoin
  size_le := by
    rw [f.size_eq]
    exact Nat.le_succ_of_le h.size_le
  heads x hx hdone hlive := by
    rw [mem_append, mem_singleton, not_or] at hdone
    have hnew : x ≠ r.nextId := Plan.ne_nextId
      (Nat.lt_of_lt_of_le (hp.inArena (hp.arranged.mem_of_joinRoots hx)) h.size_le)
    have hold := f.mem_order.mpr (.inr (f.mem_of_mem_result h.wellFormed hroot hlive hnew).1)
    exact (h.heads x hx hdone.1 hold).flatten f h.wellFormed hroot hjoin hrootMem hold hdone.2 hlive

end Found

/-- If inner joins belong to the filters right above them, every chain is flattened as it was found.
So what the flattening of one chain keeps holds of the outcome. -/
theorem WellFormed.flattenJoins_induct (hp : p.WellFormed) (hfilters : p.JoinsBelongToFilters)
    {motive : Plan → Prop} (start : motive p)
    (step : ∀ r s root (f : Flattening r root s), r.WellFormed → root ∈ r.order →
      r.isBinaryJoin f.topJoin = true → motive r → motive s) (next : Nat) :
    ∃ q next', p.flattenJoins next = .ok (q, next') ∧ q.WellFormed ∧ motive q := by
  suffices hrun : ∃ t : Plan × Nat, p.flattenJoins next = .ok t ∧
      Found p p.joinRoots.eraseDups t.1 ∧ motive t.1 by
    obtain ⟨⟨q, next'⟩, hq, hfound, hmotive⟩ := hrun
    exact ⟨q, next', hq, hfound.wellFormed, hmotive⟩
  unfold flattenJoins
  rw [Fresh.foldlM_eq]
  refine Result.foldlM_ok (motive := fun done (s : Plan × Nat) => Found p done s.1 ∧ motive s.1)
    ⟨hfilters.found hp, start⟩ ?_
  rintro done root rest ⟨r, n⟩ hsplit ⟨hfound, hmotive⟩
  dsimp only at hfound hmotive ⊢
  split
  · next hlive =>
    have hroot : root ∈ r.order := contains_iff_mem.mp hlive
    have hrootMem : root ∈ p.joinRoots := mem_eraseDups.mp (hsplit ▸ by simp)
    obtain ⟨filter, topJoin, htop, hjoin⟩ := hfound.exists_top hsplit hroot
    obtain ⟨s, hs⟩ := hfound.wellFormed.flattenAt_ok hroot htop hjoin n
    obtain ⟨f⟩ := hfound.wellFormed.arranged.toOrdered.flattening hroot hs
    obtain ⟨rfl, rfl⟩ : f.filter = filter ∧ f.topJoin = topJoin := by
      simpa using f.chain.top.symm.trans htop
    exact ⟨(s, n + 1), hs, hfound.flatten hp hrootMem f hroot hjoin,
      step r s root f hfound.wellFormed hroot hjoin hmotive⟩
  · exact ⟨(r, n), rfl, hfound.skip, hmotive⟩

theorem WellFormed.flattenJoins_ok (hp : p.WellFormed) (hfilters : p.JoinsBelongToFilters)
    (next : Nat) : ∃ q next', p.flattenJoins next = .ok (q, next') ∧ q.WellFormed ∧
      ∃ slot, Flattened p q slot :=
  hp.flattenJoins_induct hfilters ⟨some, .refl p⟩ (fun _ _ _ f hwf hroot hjoin ⟨_, h⟩ =>
    ⟨_, h.trans (f.flattened hwf hroot hjoin) hp.arranged.toOrdered⟩) next

/-- **No input of a join is lost.** If inner joins belong to the filters right above them, the
flattening of a plan without left-deep joins succeeds. It makes left-deep joins that fit their
inputs, each in the place of a filter or a join and as wide as that one, and what is reachable from
the root without having inputs stays reachable from it. -/
theorem flattenJoins_keeps_inputs (hp : p.WellFormed)
    (hplain : ∀ x ∈ p.order, ∀ j, p.op x ≠ .leftDeepJoin j) (hfilters : p.JoinsBelongToFilters)
    (next : Nat) : ∃ q next', p.flattenJoins next = .ok (q, next') ∧
      (∀ x ∈ q.order, ∀ j, q.op x = .leftDeepJoin j → j.Fits (q.inputs x)) ∧
      (∃ slot, q.order = p.order.filterMap slot ∧ ∀ t ∈ p.order, ∀ x, slot t = some x →
        q.width x = p.width t ∧ (x = t ∨ p.isFilter t = true ∨ p.isBinaryJoin t = true)) ∧
      ∀ root x, p.root? = some root → p.Reaches root x → (p.op x).arity = .exactly 0 →
        ∃ root', q.root? = some root' ∧ q.Reaches root' x := by
  obtain ⟨q, next', hq, hwf, slot, h⟩ := hp.flattenJoins_ok hfilters next
  refine ⟨q, next', hq, fun x hx j hop => ?_, ⟨slot, h.order_eq, fun t ht x hx => ⟨?_, ?_⟩⟩,
    fun root x hroot hreach hleaf => ?_⟩
  · obtain ⟨t, ht, hslot⟩ := mem_filterMap.mp (h.order_eq ▸ hx)
    rcases h.op_eq t ht x hslot with ⟨-, -, φ, hmap⟩ | ⟨-, j', hop', hfits⟩
    · have hplain := hplain t ht
      cases hold : p.op t <;> simp_all [Operator.mapExprs]
    · cases hop.symm.trans hop'
      exact hfits
  · rw [hwf.arranged.width_eq (h.mem_order ht hx), hp.arranged.width_eq ht,
      h.columnCount_eq t ht x hx]
  · exact (h.op_eq t ht x hx).imp And.left And.left
  · obtain ⟨root', hslot, hroot'⟩ := h.root_eq root hroot
    have hlive : root ∈ p.order := mem_of_getLast? hroot
    exact ⟨root', hroot', h.reaches root hlive root' hslot x hreach hleaf⟩

/-- The second of three relations below a filter is reachable from what takes its place. -/
theorem flattenJoins_keeps_inputs_chainOfThree :
    ∃ q next' root, chainOfThree.flattenJoins 6 = .ok (q, next') ∧ q.root? = some root ∧
      q.Reaches root ⟨1⟩ := by
  have hplain : ∀ x ∈ chainOfThree.order, (chainOfThree.op x).arity ≠ .atLeast 2 := by
    decide +kernel
  have hwalk : chainOfThree.Reaches ⟨5⟩ ⟨1⟩ :=
    .step (by decide : ⟨4⟩ ∈ chainOfThree.inputs ⟨5⟩) <|
      .step (by decide : ⟨3⟩ ∈ chainOfThree.inputs ⟨4⟩) <|
        .step (by decide : ⟨1⟩ ∈ chainOfThree.inputs ⟨3⟩) (.refl _)
  obtain ⟨q, next', hq, -, -, hreach⟩ := flattenJoins_keeps_inputs chainOfThree_wellFormed
    (fun x hx j hop => hplain x hx (by rw [hop]; rfl)) (by decide +kernel) 6
  obtain ⟨root, hroot, hreach⟩ := hreach ⟨5⟩ ⟨1⟩ (by decide) hwalk (by decide)
  exact ⟨q, next', root, hq, hroot, hreach⟩

/-- Two filters over one inner join, joined. -/
def twiceFiltered : Plan :=
  let values (name : String) : Operator := .values ⟨[⟨name, .condition⟩], []⟩
  let ref (source index : Nat) : Expr := .leaf (.column ⟨⟨source⟩, index⟩)
  { arena := #[.make 0 [] (values "a"), .make 1 [] (values "x"),
      .make 2 [⟨0⟩, ⟨1⟩] (.join ⟨.bool true, .inner⟩),
      .make 3 [⟨2⟩] (.filter ⟨ref 0 0⟩), .make 4 [⟨2⟩] (.filter ⟨ref 1 0⟩),
      .make 5 [⟨3⟩, ⟨4⟩] (.join ⟨.bool true, .inner⟩)]
    order := (range 6).map NodeId.mk }

/-- The join is flattened once for each of its filters, the second time with one input only. -/
theorem flattenJoins_loses_input_twiceFiltered :
    twiceFiltered.WellFormed ∧ ∃ q next' j, twiceFiltered.flattenJoins 6 = .ok (q, next') ∧
      ⟨7⟩ ∈ q.order ∧ q.op ⟨7⟩ = .leftDeepJoin j ∧ ¬j.Fits (q.inputs ⟨7⟩) := by
  refine ⟨wellFormed_of_reads ⟨⟨by decide, by decide, by decide⟩, by decide⟩ (by decide) (by decide)
    (by decide +kernel), ?_⟩
  have hrun : (twiceFiltered.flattenJoins 6).holds (fun s => s.1.order.contains ⟨7⟩ &&
      s.1.inputs ⟨7⟩ == [⟨0⟩] && match s.1.op ⟨7⟩ with
        | .leftDeepJoin _ => true
        | _ => false) = true := by decide +kernel
  obtain ⟨⟨q, next'⟩, hq, htest⟩ := Result.holds_eq_true.mp hrun
  simp only [Bool.and_eq_true, contains_iff_mem, beq_iff_eq] at htest
  obtain ⟨⟨hlive, hinputs⟩, hkind⟩ := htest
  split at hkind
  · next j hop =>
    exact ⟨q, next', j, hq, hlive, hop, fun hfits => absurd (hinputs ▸ hfits.two_le) (by decide)⟩
  · cases hkind

end Plan

end QueryPlan
