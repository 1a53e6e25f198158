import QueryPlan.Proofs.Flattening.Inputs
/-!
# QueryPlan.Proofs.Flattening.Places

**Flattening keeps columns apart.** References between joins carry the handle of the lower join, so
a relation may be used at two levels of a chain and its two uses are told apart. The columns of a
flattened chain carry the handles of the relations, and there two uses of one relation are the same
(`Plan.flattenJoins_merges_columns_nestedJoins`).

If no chain reads a relation twice (`Plan.ChainsReadDistinct`), every reference keeps its place in
what its node sees (`Plan.KeepsPlaces`), whether the node is left or a chain has taken it in. So
different columns stay different (`Plan.flattenJoins_keeps_columns_apart`).
-/

namespace QueryPlan

open List

/-! ### What the conditions of a chain refer to -/

namespace Expr

/-- What a condition refers to, a conjunct of it does. -/
theorem exists_conjunct_of_mem_columns {e : Expr} {c : ColumnRef} (hc : c ∈ e.columns) :
    ∃ d ∈ e.conjuncts, c ∈ d.columns := by
  have hleaf := mem_columns_iff.mp hc
  rw [← leaves_conjuncts e] at hleaf
  obtain ⟨d, hd, hleaf⟩ := mem_flatMap.mp hleaf
  exact ⟨d, hd, mem_columns_iff.mpr hleaf⟩

/-- A conjunction without its trivial parts refers to what its parts refer to. -/
theorem mem_columns_all?_of_mem {es : List Expr} {d : Expr} (hd : d ∈ es) {c : ColumnRef}
    (hc : c ∈ d.columns) :
    c ∈ ((all? (es.filter fun e => !e.isTrue)).getD (bool true)).columns := by
  have hkept : d ∈ es.filter fun e => !e.isTrue := by
    refine mem_filter.mpr ⟨hd, ?_⟩
    cases d with
    | leaf l => cases l with
      | column ref => rfl
      | _ => cases hc
    | app head args => rfl
  cases hall : all? (es.filter fun e => !e.isTrue) with
  | none =>
      rw [all?_eq_none_iff.mp hall] at hkept
      cases hkept
  | some e =>
      refine mem_columns_iff.mpr ?_
      rw [Option.getD_some, leaves_of_all? hall]
      exact mem_flatMap.mpr ⟨d, hkept, mem_columns_iff.mp hc⟩

end Expr

/-- A level adds its input at the end of the chain. -/
theorem ChainLevels.cons_inputs_push (levels : ChainLevels) (leftmost right : NodeId) (j : Join) :
    leftmost :: (levels.push right j).inputs = leftmost :: levels.inputs ++ [right] := rfl

namespace Plan

variable {p q r : Plan} {root : NodeId}

namespace Leveled

variable {top leftmost x : NodeId} {joins : List NodeId} {levels : ChainLevels}

/-- The part of a chain up to one of its joins. -/
theorem exists_below (h : p.Leveled leftmost top joins levels) (hx : x ∈ joins) :
    ∃ left right j below levels₀, p.op x = .join j ∧ p.inputs x = [left, right] ∧
      p.Leveled leftmost left below levels₀ ∧ below ⊆ joins ∧
      levels₀.inputs ++ [right] <+: levels.inputs := by
  induction h with
  | none => cases hx
  | @push top left right j below levels hop hinputs hchain ih =>
      rcases mem_cons.mp hx with rfl | hx
      · exact ⟨left, right, j, below, levels, hop, hinputs, hchain, subset_cons_self _ _,
          prefix_refl _⟩
      · obtain ⟨left', right', j', below', levels', hop', hinputs', hchain', hsub, hprefix⟩ := ih hx
        exact ⟨left', right', j', below', levels', hop', hinputs', hchain',
          fun y hy => mem_cons_of_mem _ (hsub hy), hprefix.trans (prefix_append _ _)⟩

/-- What a join of a chain refers to is found in the conditions of the levels. -/
theorem exists_condition (h : p.Leveled leftmost top joins levels) (hx : x ∈ joins) {c : ColumnRef}
    (hc : c ∈ (p.op x).columns) :
    ∃ e, (e ∈ levels.conjuncts ∨ some e ∈ levels.outer) ∧ c ∈ e.columns := by
  induction h with
  | none => cases hx
  | @push top left right j below levels hop hinputs hchain ih =>
      rcases mem_cons.mp hx with rfl | hx
      · have hc : c ∈ j.condition.columns := by
          rw [hop, Operator.mem_columns] at hc
          obtain ⟨e, he, hc⟩ := hc
          exact mem_singleton.mp he ▸ hc
        cases hkind : j.kind with
        | inner =>
            obtain ⟨d, hd, hc⟩ := Expr.exists_conjunct_of_mem_columns hc
            exact ⟨d, .inl (by simp [ChainLevels.push, hkind, hd]), hc⟩
        | left => exact ⟨j.condition, .inr (by simp [ChainLevels.push, hkind]), hc⟩
      · obtain ⟨e, he, hc⟩ := ih hx
        refine ⟨e, he.imp (fun h => ?_) fun h => ?_, hc⟩
        · exact mem_append_left _ h
        · exact mem_append_left _ h

end Leveled

namespace NewNode

variable (f : NewNode p root) (hp : p.WellFormed) (hroot : root ∈ p.order)
  (hjoin : p.isBinaryJoin f.topJoin = true) {x : NodeId} (hx : x = f.top ∨ x ∈ f.below)
  {c : ColumnRef} (hc : c ∈ (p.op x).columns)
include hp hroot hjoin hx hc

/-- The new node refers to what the nodes of the chain referred to. -/
theorem chainColumn_mem_columns :
    chainColumn f.joins f.columns c ∈ (Operator.leftDeepJoin f.op).columns := by
  obtain ⟨levels, hlevels⟩ := f.exists_madeOf hp hroot hjoin
  suffices hcondition : ∃ e, (e ∈ p.chainConjuncts f.filter levels ∨ some e ∈ levels.outer) ∧
      c ∈ e.columns by
    obtain ⟨e, he | he, hc⟩ := hcondition
    · refine Operator.mem_columns.mpr ⟨f.op.condition, mem_cons_self, ?_⟩
      rw [hlevels.condition_eq, Expr.columns_mapColumns]
      exact mem_map_of_mem (Expr.mem_columns_all?_of_mem he hc)
    · have hmem : some (e.mapColumns (chainColumn f.joins f.columns)) ∈ f.op.outer := by
        rw [hlevels.outer_eq]
        exact mem_map.mpr ⟨some e, he, rfl⟩
      refine Operator.mem_columns.mpr
        ⟨_, mem_cons_of_mem _ (mem_filterMap.mpr ⟨_, hmem, rfl⟩), ?_⟩
      rw [Expr.columns_mapColumns]
      exact mem_map_of_mem hc
  rcases mem_append.mp (f.mem_olds.mpr hx) with hfilter | hx
  · obtain ⟨rfl, hop, -⟩ := f.chain.of_filter (Option.mem_toList.mp hfilter)
    obtain ⟨g, hg⟩ := isFilter_iff.mp hop
    have hc : c ∈ g.condition.columns := by
      rw [hg, Operator.mem_columns] at hc
      obtain ⟨e, he, hc⟩ := hc
      exact mem_singleton.mp he ▸ hc
    obtain ⟨d, hd, hc⟩ := Expr.exists_conjunct_of_mem_columns hc
    refine ⟨d, .inl (mem_append_right _ (mem_flatMap.mpr ⟨x, hfilter, ?_⟩)), hc⟩
    rwa [filterConjuncts, hg]
  · obtain ⟨e, he, hc⟩ := hlevels.leveled.exists_condition hx hc
    exact ⟨e, he.imp (mem_append_left _) fun h => h, hc⟩

/-- If the flattened inputs are distinct, references of the chain stay at their positions. -/
theorem idxOf_chainColumn_of_mem (hdistinct : f.inputs.Nodup) :
    f.columns.idxOf (chainColumn f.joins f.columns c) = (p.columnsOf (p.reads x)).idxOf c := by
  obtain ⟨levels, hlevels⟩ := f.exists_madeOf hp hroot hjoin
  have hapart := f.apart hp hroot hdistinct hlevels
  have hlive := f.chain.subset hp.arranged.toOrdered hroot (f.mem_olds.mpr hx)
  have hsees := mem_columnsOf.mpr (hp.reads_of_mem hlive hc)
  rcases mem_append.mp (f.mem_olds.mpr hx) with hfilter | hx
  · obtain ⟨rfl, hop, hinputs, -⟩ := f.chain.of_filter (Option.mem_toList.mp hfilter)
    obtain ⟨g, hg⟩ := isFilter_iff.mp hop
    have hreads : p.reads x = p.inputs f.topJoin := by
      rw [reads_of_input (by rw [hg]; rfl) hinputs,
        exposed_of_join (isJoin_of_isBinaryJoin hjoin)]
    rw [hreads] at hsees ⊢
    exact f.idxOf_topJoin hp hroot hjoin hdistinct c hsees
  · obtain ⟨left, right, j, below, levels₀, hop, hinputs, hchain, hsub, hprefix⟩ :=
      hlevels.leveled.exists_below hx
    have hreads : p.reads x = [left, right] := by
      rw [reads_of_join (by rw [hop]; rfl), hinputs]
    rw [hreads] at hsees ⊢
    exact hchain.idxOf_level hapart hp.arranged.toOrdered
      (hp.arranged.mem_of_input hlive (by simp [hinputs])) hsub hprefix c hsees

end NewNode

/-! ### Places -/

/-- What a node refers to keeps its place in what the node sees, whether the node is left or a
left-deep join has taken it in. -/
structure KeepsPlaces (p q : Plan) (t y : NodeId) (φ : ColumnRef → ColumnRef) : Prop where
  live : y ∈ q.order
  op_eq : (y = t ∧ q.op t = (p.op t).mapExprs (Expr.mapColumns φ)) ∨
    ((∃ j, q.op y = .leftDeepJoin j) ∧ ∀ c ∈ (p.op t).columns, φ c ∈ (q.op y).columns)
  idxOf_eq : ∀ c ∈ (p.op t).columns,
    (q.columnsOf (q.reads y)).idxOf (φ c) = (p.columnsOf (p.reads t)).idxOf c

namespace KeepsPlaces

variable {t y z : NodeId} {φ ψ : ColumnRef → ColumnRef}

theorem refl (ht : t ∈ p.order) : KeepsPlaces p p t t fun c => c where
  live := ht
  op_eq := .inl ⟨rfl, by rw [funext Expr.mapColumns_id, Operator.mapExprs_id]⟩
  idxOf_eq _ _ := rfl

/-- The references of a node are found where its references went. -/
theorem mem_columns (h : KeepsPlaces p q t y φ) {c : ColumnRef} (hc : c ∈ (p.op t).columns) :
    φ c ∈ (q.op y).columns := by
  rcases h.op_eq with ⟨rfl, hop⟩ | ⟨-, hmem⟩
  · rw [hop, Operator.columns_mapExprs]
    exact mem_map_of_mem hc
  · exact hmem c hc

theorem trans (h : KeepsPlaces p r t y φ) (h' : KeepsPlaces r q y z ψ) :
    KeepsPlaces p q t z fun c => ψ (φ c) where
  live := h'.live
  op_eq := by
    have hmem : ∀ c ∈ (p.op t).columns, ψ (φ c) ∈ (q.op z).columns := fun c hc =>
      h'.mem_columns (h.mem_columns hc)
    rcases h'.op_eq with ⟨rfl, hop'⟩ | ⟨hnew, -⟩
    · rcases h.op_eq with ⟨rfl, hop⟩ | ⟨⟨j, hop⟩, -⟩
      · refine .inl ⟨rfl, ?_⟩
        rw [hop', hop, Operator.mapExprs_mapExprs]
        exact Operator.mapExprs_congr fun e _ => Expr.mapColumns_mapColumns _ _ e
      · exact .inr ⟨⟨_, hop'.trans (congrArg _ hop)⟩, hmem⟩
    · exact .inr ⟨hnew, hmem⟩
  idxOf_eq c hc := (h'.idxOf_eq _ (h.mem_columns hc)).trans (h.idxOf_eq c hc)

/-- References that become the same stood at the same place, also if two nodes have them that see
the same columns in the end. -/
theorem idxOf_eq_of_eq {t' y' : NodeId} {φ' : ColumnRef → ColumnRef} (h : KeepsPlaces p q t y φ)
    (h' : KeepsPlaces p q t' y' φ') (hsees : q.columnsOf (q.reads y) = q.columnsOf (q.reads y'))
    {c c' : ColumnRef} (hc : c ∈ (p.op t).columns) (hc' : c' ∈ (p.op t').columns)
    (heq : φ c = φ' c') :
    (p.columnsOf (p.reads t)).idxOf c = (p.columnsOf (p.reads t')).idxOf c' := by
  rw [← h.idxOf_eq c hc, ← h'.idxOf_eq c' hc', hsees, heq]

/-- Different columns that a node refers to stay different. -/
theorem injective (h : KeepsPlaces p q t y φ) (hp : p.WellFormed) (ht : t ∈ p.order)
    {c c' : ColumnRef} (hc : c ∈ (p.op t).columns) (hc' : c' ∈ (p.op t).columns)
    (heq : φ c = φ c') : c = c' :=
  (idxOf_inj (mem_columnsOf.mpr (hp.reads_of_mem ht hc))).mp (h.idxOf_eq_of_eq h rfl hc hc' heq)

end KeepsPlaces

/-- If the relations of a chain are distinct, flattening it keeps all places. -/
theorem Flattening.keepsPlaces (f : Flattening p root q) (hp : p.WellFormed)
    (hroot : root ∈ p.order) (hjoin : p.isBinaryJoin f.topJoin = true) (hdistinct : f.inputs.Nodup)
    {t : NodeId} (ht : t ∈ p.order) : ∃ y φ, KeepsPlaces p q t y φ := by
  have hordered := hp.arranged.toOrdered
  have hnew := f.op_nextId hp hroot
  by_cases hold : t = f.top ∨ t ∈ f.below
  · have hlive : p.nextId ∈ q.order := by simp [f.order_result hordered hroot]
    have hcolumns : q.columnsOf (q.reads p.nextId) = f.columns := by
      rw [reads_of_join (by rw [hnew]; rfl), f.inputs_nextId hordered]
      exact f.columnsOf_inputs hp hroot hjoin
    refine ⟨p.nextId, chainColumn f.joins f.columns, hlive, .inr ⟨⟨f.op, hnew⟩, fun c hc => ?_⟩,
      fun c hc => ?_⟩
    · rw [hnew]
      exact f.chainColumn_mem_columns hp hroot hjoin hold hc
    · rw [hcolumns]
      exact f.idxOf_chainColumn_of_mem hp hroot hjoin hold hc hdistinct
  · obtain ⟨htop, hleft⟩ := not_or.mp hold
    have hmem := (f.mem_order.mp ht).resolve_left htop
    have hlive : t ∈ q.order := by
      rw [f.order_result hordered hroot]
      rcases mem_append.mp hmem with hpre | hpost
      · exact mem_append_left _ (mem_filter.mpr ⟨hpre, decide_eq_true hleft⟩)
      · exact mem_append_right _ (mem_cons_of_mem _ hpost)
    exact ⟨t, f.movedColumn t, hlive, .inl ⟨rfl, f.op_eq hp hroot hjoin hmem hleft⟩, fun c hc =>
      f.idxOf_movedColumn hp hroot hjoin hmem hleft hc hdistinct⟩

/-! ### Chains of distinct relations -/

/-- No chain of joins, followed along left inputs over any distance, reads a relation twice. -/
def ChainsReadDistinct (p : Plan) : Prop :=
  ∀ leftmost top joins levels, top ∈ p.order → p.Leveled leftmost top joins levels →
    (leftmost :: levels.inputs).Nodup

/-- Nodes of a plan are told apart after one of them has given way to a new one. -/
theorem Ordered.replaced_inj (hp : p.Ordered p.order) {old x y : NodeId} (hx : x ∈ p.order)
    (hy : y ∈ p.order) (h : old.replaced p.nextId x = old.replaced p.nextId y) : x = y := by
  have hxNew : x ≠ p.nextId := ne_nextId (hp.inArena x hx)
  have hyNew : y ≠ p.nextId := ne_nextId (hp.inArena y hy)
  unfold NodeId.replaced at h
  grind

namespace Flattening

variable (f : Flattening p root q) (hp : p.WellFormed) (hroot : root ∈ p.order)
  (hjoin : p.isBinaryJoin f.topJoin = true)
include hp hroot hjoin

/-- A chain that is left was there before, with the top in place of the new node. -/
theorem exists_leveled {leftmost top : NodeId} {joins : List NodeId} {levels : ChainLevels}
    (h : q.Leveled leftmost top joins levels) (htop : top ∈ q.order) :
    ∃ leftmost₀ top₀ levels₀, top₀ ∈ p.order ∧ p.Leveled leftmost₀ top₀ joins levels₀ ∧
      top = f.top.replaced p.nextId top₀ ∧ leftmost :: levels.inputs =
        (leftmost₀ :: levels₀.inputs).map (f.top.replaced p.nextId) := by
  have hordered := hp.arranged.toOrdered
  have hkept : ∀ x ∈ f.pre ++ f.post, x = f.top.replaced p.nextId x := fun x hx =>
    (NodeId.replaced_of_ne _ (ne_of_mem_of_not_mem hx (f.top_not_mem hordered))).symm
  induction h with
  | none =>
      by_cases hnew : leftmost = p.nextId
      · have hreplaced : leftmost = f.top.replaced p.nextId f.top :=
          hnew.trans (NodeId.replaced_self _ _).symm
        exact ⟨f.top, f.top, .none, f.mem_order.mpr (.inl rfl), .none, hreplaced,
          congrArg (· :: []) hreplaced⟩
      · have hmem := (f.mem_of_mem_result hp hroot htop hnew).1
        exact ⟨leftmost, leftmost, .none, f.mem_order.mpr (.inr hmem), .none, hkept _ hmem,
          congrArg (· :: []) (hkept _ hmem)⟩
  | @push top left right j below levels hop hinputs _ ih =>
      -- The new node is no plain join, so the top of the chain is a node of the plan.
      have hnew : top ≠ p.nextId := by
        rintro rfl
        rw [f.op_nextId hp hroot] at hop
        cases hop
      obtain ⟨hmem, hleft⟩ := f.mem_of_mem_result hp hroot htop hnew
      have htop₀ : top ∈ p.order := f.mem_order.mpr (.inr hmem)
      obtain ⟨j₀, hop₀⟩ : ∃ j₀, p.op top = .join j₀ := by
        rw [f.op_eq hp hroot hjoin hmem hleft] at hop
        cases hop₀ : p.op top <;> rw [hop₀] at hop <;> cases hop
        exact ⟨_, rfl⟩
      obtain ⟨left₀, right₀, hinputs₀⟩ := hp.arranged.sides_of_join htop₀ hop₀
      have hmap := f.inputs_eq hordered hmem
      rw [hinputs, hinputs₀] at hmap
      obtain ⟨hleftEq, hrightEq⟩ : left = f.top.replaced p.nextId left₀ ∧
          right = f.top.replaced p.nextId right₀ := by simpa using hmap
      obtain ⟨leftmost₀, top', levels₀, htop', hchain, htopEq, hinputsEq⟩ :=
        ih ((f.ordered hordered hroot).mem_of_input htop (by simp [hinputs]))
      have hleft₀ : left₀ ∈ p.order := hordered.mem_of_input htop₀ (by simp [hinputs₀])
      cases hordered.replaced_inj hleft₀ htop' (hleftEq.symm.trans htopEq)
      refine ⟨leftmost₀, top, levels₀.push right₀ j₀, htop₀, .push hop₀ hinputs₀ hchain,
        hkept top hmem, ?_⟩
      rw [ChainLevels.cons_inputs_push, ChainLevels.cons_inputs_push, hinputsEq, map_append,
        map_singleton, hrightEq]

theorem chainsReadDistinct (hchains : p.ChainsReadDistinct) : q.ChainsReadDistinct := by
  intro leftmost top joins levels htop h
  have hordered := hp.arranged.toOrdered
  obtain ⟨leftmost₀, top₀, levels₀, htop₀, hchain, -, hinputs⟩ :=
    f.exists_leveled hp hroot hjoin h htop
  rw [hinputs]
  refine (hchains _ _ _ _ htop₀ hchain).map_on fun x hx y hy hxy => ?_
  exact hordered.replaced_inj (hchain.subset hordered htop₀ hx) (hchain.subset hordered htop₀ hy) hxy

/-- The relations of the chain are distinct. -/
theorem nodup_inputs (hchains : p.ChainsReadDistinct) : f.inputs.Nodup := by
  obtain ⟨levels, hlevels⟩ := f.exists_madeOf hp hroot hjoin
  exact hlevels.inputs_eq ▸ hchains _ _ _ _ (f.topJoin_mem hp hroot) hlevels.leveled

end Flattening

/-- A plan after the flattening of some of its chains, with no relation used twice in one. -/
structure FlattenedApart (p q : Plan) : Prop where
  chains : q.ChainsReadDistinct
  isLeftDeep : ∀ x ∈ q.order, x ∉ p.order → ∃ j, q.op x = .leftDeepJoin j
  nodup_inputs : ∀ x ∈ q.order, x ∉ p.order → (q.inputs x).Nodup
  keeps : ∀ t ∈ p.order, ∃ y φ, KeepsPlaces p q t y φ

theorem FlattenedApart.refl (hchains : p.ChainsReadDistinct) : FlattenedApart p p where
  chains := hchains
  isLeftDeep _ hx hnew := absurd hx hnew
  nodup_inputs _ hx hnew := absurd hx hnew
  keeps t ht := ⟨t, _, .refl ht⟩

theorem FlattenedApart.flatten (h : FlattenedApart p r) (f : Flattening r root q)
    (hr : r.WellFormed) (hroot : root ∈ r.order) (hjoin : r.isBinaryJoin f.topJoin = true) :
    FlattenedApart p q where
  chains := f.chainsReadDistinct hr hroot hjoin h.chains
  isLeftDeep x hx hold := by
    by_cases hnew : x = r.nextId
    · exact ⟨f.op, hnew ▸ f.op_nextId hr hroot⟩
    · obtain ⟨hmem, hleft⟩ := f.mem_of_mem_result hr hroot hx hnew
      obtain ⟨j, hop⟩ := h.isLeftDeep x (f.mem_order.mpr (.inr hmem)) hold
      exact ⟨_, (f.op_eq hr hroot hjoin hmem hleft).trans (congrArg _ hop)⟩
  nodup_inputs x hx hold := by
    have hordered := hr.arranged.toOrdered
    by_cases hnew : x = r.nextId
    · rw [hnew, f.inputs_nextId hordered]
      exact f.nodup_inputs hr hroot hjoin h.chains
    · obtain ⟨hmem, -⟩ := f.mem_of_mem_result hr hroot hx hnew
      have hlive := f.mem_order.mpr (.inr hmem)
      rw [f.inputs_eq hordered hmem]
      refine (h.nodup_inputs x hlive hold).map_on fun i hi k hk hik => ?_
      exact hordered.replaced_inj (hordered.mem_of_input hlive hi) (hordered.mem_of_input hlive hk)
        hik
  keeps t ht := by
    obtain ⟨y, φ, hkept⟩ := h.keeps t ht
    have hdistinct := f.nodup_inputs hr hroot hjoin h.chains
    obtain ⟨z, ψ, hkept'⟩ := f.keepsPlaces hr hroot hjoin hdistinct hkept.live
    exact ⟨z, _, hkept.trans hkept'⟩

/-- **Flattening keeps columns apart**, if no chain of joins reads a relation twice and inner joins
belong to the filters right above them. Flattening then succeeds, and the left-deep joins that it
makes have distinct inputs. What a node refers to stands where it stood in what the node sees, so
no two references to different columns become the same. -/
theorem flattenJoins_keeps_columns_apart (hp : p.WellFormed) (hfilters : p.JoinsBelongToFilters)
    (hchains : p.ChainsReadDistinct) (next : Nat) :
    ∃ q next', ∃ (place : NodeId → NodeId) (φ : NodeId → ColumnRef → ColumnRef),
      p.flattenJoins next = .ok (q, next') ∧
      (∀ x ∈ q.order, x ∉ p.order → (∃ j, q.op x = .leftDeepJoin j) ∧ (q.inputs x).Nodup) ∧
      (∀ t ∈ p.order, KeepsPlaces p q t (place t) (φ t)) ∧
      (∀ t ∈ p.order, ∀ c ∈ (p.op t).columns, ∀ c' ∈ (p.op t).columns, φ t c = φ t c' → c = c') ∧
      ∀ t ∈ p.order, ∀ t' ∈ p.order,
        q.columnsOf (q.reads (place t)) = q.columnsOf (q.reads (place t')) →
        ∀ c ∈ (p.op t).columns, ∀ c' ∈ (p.op t').columns, φ t c = φ t' c' →
          (p.columnsOf (p.reads t)).idxOf c = (p.columnsOf (p.reads t')).idxOf c' := by
  obtain ⟨q, next', hq, -, h⟩ := hp.flattenJoins_induct hfilters (FlattenedApart.refl hchains)
    (fun _ _ _ f hr hroot hjoin h => h.flatten f hr hroot hjoin) next
  choose! place φ hkeeps using h.keeps
  refine ⟨q, next', place, φ, hq, fun x hx hnew => ⟨h.isLeftDeep x hx hnew, ?_⟩, hkeeps, ?_, ?_⟩
  · exact h.nodup_inputs x hx hnew
  · exact fun t ht c hc c' hc' heq => (hkeeps t ht).injective hp ht hc hc' heq
  · exact fun t ht t' ht' hsees c hc c' hc' heq =>
      (hkeeps t ht).idxOf_eq_of_eq (hkeeps t' ht') hsees hc hc' heq

/-- The two references of the lower join of a chain stay different. -/
theorem flattenJoins_keeps_columns_apart_chainOfThree :
    ∃ q next' y, ∃ φ : ColumnRef → ColumnRef, chainOfThree.flattenJoins 6 = .ok (q, next') ∧
      KeepsPlaces chainOfThree q ⟨3⟩ y φ ∧ φ ⟨⟨0⟩, 0⟩ ≠ φ ⟨⟨1⟩, 0⟩ := by
  have hchains : chainOfThree.ChainsReadDistinct := by
    intro leftmost top joins levels htop h
    -- A chain ends where it is, or it goes on from the third or the fourth node.
    have hjoin : ∀ x ∈ chainOfThree.order, chainOfThree.isBinaryJoin x = true →
        x = ⟨3⟩ ∨ x = ⟨4⟩ := by decide +kernel
    have hends : ∀ leftmost joins levels, chainOfThree.Leveled leftmost ⟨0⟩ joins levels →
        leftmost :: levels.inputs = [⟨0⟩] := fun _ _ _ h => by
      cases h with
      | none => rfl
      | push hop => cases hop
    have hlower : ∀ leftmost joins levels, chainOfThree.Leveled leftmost ⟨3⟩ joins levels →
        leftmost :: levels.inputs = [⟨3⟩] ∨ leftmost :: levels.inputs = [⟨0⟩, ⟨1⟩] :=
      fun _ _ _ h => by
        cases h with
        | none => exact .inl rfl
        | push _ hinputs h =>
            cases hinputs
            rw [ChainLevels.cons_inputs_push, hends _ _ _ h]
            exact .inr rfl
    cases h with
    | none => exact nodup_singleton _
    | push hop hinputs h =>
        rcases hjoin top htop (by rw [isBinaryJoin, hop]) with rfl | rfl
        · cases hinputs
          rw [ChainLevels.cons_inputs_push, hends _ _ _ h]
          decide
        · cases hinputs
          rw [ChainLevels.cons_inputs_push]
          rcases hlower _ _ _ h with h | h <;> rw [h] <;> decide
  obtain ⟨q, next', place, φ, hq, -, hkeeps, hinjective, -⟩ := flattenJoins_keeps_columns_apart
    chainOfThree_wellFormed (by decide +kernel) hchains 6
  refine ⟨q, next', place ⟨3⟩, φ ⟨3⟩, hq, hkeeps ⟨3⟩ (by decide), fun heq => ?_⟩
  have hcolumns := hinjective ⟨3⟩ (by decide) ⟨⟨0⟩, 0⟩ (by decide) ⟨⟨1⟩, 0⟩ (by decide) heq
  exact absurd hcolumns (by decide)

/-- A relation, joined to a second one, is joined to the outcome again. A projection shows its column
from both levels. -/
def nestedJoins : Plan :=
  let values (name : String) : Operator := .values ⟨[⟨name, .condition⟩], []⟩
  let ref (source index : Nat) : Expr := .leaf (.column ⟨⟨source⟩, index⟩)
  let equal (e e' : Expr) : Expr := .app (.operator .eq .condition) [e, e']
  { arena := #[.make 0 [] (values "a"), .make 1 [] (values "x"),
      .make 2 [⟨0⟩, ⟨1⟩] (.join ⟨equal (ref 0 0) (ref 1 0), .inner⟩),
      .make 3 [⟨2⟩, ⟨0⟩] (.join ⟨equal (ref 2 0) (ref 0 0), .inner⟩),
      .make 4 [⟨3⟩] (.project ⟨[ref 2 0, ref 0 0], ["l", "r"], none⟩)]
    order := (range 5).map NodeId.mk }

/-- No join of the plan lists a relation twice, but the left-deep join does, and the references of the
projection become the same. -/
theorem flattenJoins_merges_columns_nestedJoins :
    nestedJoins.WellFormed ∧ nestedJoins.JoinsBelongToFilters ∧
      (∀ x ∈ nestedJoins.order, nestedJoins.isBinaryJoin x = true → (nestedJoins.inputs x).Nodup) ∧
      (nestedJoins.op ⟨4⟩).columns = [⟨⟨2⟩, 0⟩, ⟨⟨0⟩, 0⟩] ∧
      ∃ q next' j, nestedJoins.flattenJoins 5 = .ok (q, next') ∧ ⟨5⟩ ∈ q.order ∧
        q.op ⟨5⟩ = .leftDeepJoin j ∧ ¬(q.inputs ⟨5⟩).Nodup ∧
        (q.op ⟨4⟩).columns = [⟨⟨0⟩, 0⟩, ⟨⟨0⟩, 0⟩] := by
  refine ⟨wellFormed_of_reads ⟨⟨by decide, by decide, by decide⟩, by decide⟩ (by decide) (by decide)
    (by decide +kernel), by decide +kernel, by decide +kernel, by decide, ?_⟩
  have hrun : (nestedJoins.flattenJoins 5).holds (fun s => s.1.order.contains ⟨5⟩ &&
      s.1.inputs ⟨5⟩ == [⟨0⟩, ⟨1⟩, ⟨0⟩] && (s.1.op ⟨4⟩).columns == [⟨⟨0⟩, 0⟩, ⟨⟨0⟩, 0⟩] &&
      match s.1.op ⟨5⟩ with
        | .leftDeepJoin _ => true
        | _ => false) = true := by decide +kernel
  obtain ⟨⟨q, next'⟩, hq, htest⟩ := Result.holds_eq_true.mp hrun
  simp only [Bool.and_eq_true, contains_iff_mem, beq_iff_eq] at htest
  obtain ⟨⟨⟨hlive, hinputs⟩, hcolumns⟩, hkind⟩ := htest
  split at hkind
  · next j hop => exact ⟨q, next', j, hq, hlive, hop, hinputs ▸ by decide, hcolumns⟩
  · cases hkind

end Plan

end QueryPlan
