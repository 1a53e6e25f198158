import QueryPlan.Proofs.ChainFusion.Compounds
import QueryPlan.Proofs.Meaning.Grouping
/-!
# QueryPlan.Proofs.Meaning.Fusion

**What the compound of a chain computes.** The rows of a chain are the rows of its nodes, one after
the other (`Plan.rowsAlong`). The compound makes the same rows from the same input, if the chain may
be inlined (`Plan.Inlinable`), and this is shown node by node (`Fusion.Evaluates`).

A projection behind an aggregate computes from columns of the groups. In the compound these
expressions stand among the sources, and sources are evaluated at the rows before they are grouped.
That is the same for what is computed from the first key alone, at a row of the group, but not for
window functions.
-/

namespace QueryPlan

open List

namespace Fusion

open Plan

variable {p : Plan} {last : NodeId} {e : Expr} {es sources sources' first : List Expr}
  {a : Aggregate} {c : Compound} {t : CompoundTarget} {ts : List CompoundTarget}

/-! ### Sources of a later projection -/

/-- Sources that do not refer to a node stand in place of its columns as they are. -/
theorem inlineSources_eq (hfirst : first <+: sources)
    (hunseen : ∀ s ∈ first, ∀ c ∈ s.columns, c.source ≠ last)
    (hleaves : ∀ l ∈ e.leaves, ∃ k < first.length, l = .column ⟨last, k⟩) :
    inlineSources last sources (sources.length + 1) e = .ok (e.inline last first) := by
  refine Expr.mapLeavesM_ok fun l hl => ?_
  obtain ⟨k, hk, rfl⟩ := hleaves l hl
  have hget : first[k]? = some first[k] := getElem?_eq_getElem hk
  have hsource : sources[k]? = some first[k] := prefix_iff_getElem?.mp hfirst k hk
  dsimp only
  rw [if_pos rfl, Result.bind_ok (Result.ofOption_eq_ok.mpr hsource), Expr.inlineLeaf, if_pos rfl,
    hget, Option.getD_some]
  split
  · rfl
  · obtain ⟨depth, hdepth⟩ : ∃ depth, sources.length = depth + 1 :=
      Nat.exists_eq_succ_of_ne_zero
        (Nat.ne_of_gt (Nat.zero_lt_of_lt (Nat.lt_of_lt_of_le hk hfirst.length_le)))
    rw [hdepth]
    exact inlineSources_of_unseen (hunseen _ (getElem_mem hk)) depth

/-- A column of the aggregate has its target. -/
theorem answers_of_targetOf (hcolumns : ∀ d ∈ e.columns, d.source = last)
    (h : targetOf (a.targets first.length) e = .ok t) : c.Answers first a last e t := by
  unfold targetOf at h
  split at h
  · next d =>
    obtain rfl := hcolumns d (mem_singleton_self d)
    exact .column (Result.ofOption_eq_ok.mp h)
  · obtain ⟨_, -, h⟩ := Result.bind_eq_ok.mp h
    cases h

variable (hcount : a.groupCount ≤ first.length)
  (hunseen : ∀ s ∈ first, ∀ c ∈ s.columns, c.source ≠ last)
include hcount hunseen

/-- A projection over the aggregate gives targets that have the values of its expressions. -/
theorem answers_of_addTarget (hfirst : first <+: sources)
    (hcolumns : ∀ d ∈ e.columns, d.source = last)
    (hcomputed : e.isColumn = false →
      e.hasWindow = false ∧ 0 < a.groupCount ∧ ∀ l ∈ e.leaves, l = .column ⟨last, 0⟩)
    (h : addTarget (a.targets first.length) last e sources = .ok (t, sources'))
    (hsources : sources' <+: c.sources) : c.Answers first a last e t := by
  unfold addTarget at h
  split at h
  · obtain ⟨t', ht, h⟩ := Result.bind_eq_ok.mp h
    obtain ⟨rfl, -⟩ := Prod.mk.inj (Except.ok.inj h)
    exact answers_of_targetOf hcolumns ht
  · next hcolumn =>
    obtain ⟨⟨source, s⟩, hsource, h⟩ := Result.bind_eq_ok.mp h
    obtain ⟨source', hinline, hs⟩ := Result.bind_eq_ok.mp hsource
    cases hs
    cases h
    rw [Bool.not_eq_true] at hcolumn
    obtain ⟨hwindow, hkeys, hleaves⟩ := hcomputed hcolumn
    rw [inlineSources_eq hfirst hunseen fun l hl =>
      ⟨0, Nat.lt_of_lt_of_le hkeys hcount, hleaves l hl⟩] at hinline
    obtain rfl := Except.ok.inj hinline
    refine .computed hcolumn hwindow hkeys hleaves ?_
    exact (prefix_iff_getElem?.mp hsources sources.length (by simp)).trans (by simp)

theorem answers_of_addTarget_mapM (hfirst : first <+: sources)
    (hcolumns : ∀ e ∈ es, ∀ d ∈ e.columns, d.source = last)
    (hcomputed : ∀ e ∈ es, e.isColumn = false →
      e.hasWindow = false ∧ 0 < a.groupCount ∧ ∀ l ∈ e.leaves, l = .column ⟨last, 0⟩)
    (h : (es.mapM (addTarget (a.targets first.length) last)).run sources = .ok (ts, sources'))
    (hsources : sources' <+: c.sources) : Forall₂ (c.Answers first a last) es ts := by
  induction es generalizing sources ts with
  | nil =>
      cases h
      exact .nil
  | cons e es ih =>
      rw [mapM_cons] at h
      obtain ⟨⟨t, middle⟩, he, h⟩ := Result.bind_eq_ok.mp h
      obtain ⟨⟨rest, final⟩, hrest, h⟩ := Result.bind_eq_ok.mp h
      cases h
      have hgrow : sources <+: middle := by
        rcases addTarget_eq_ok he with ⟨rfl, -⟩ | ⟨source, -, rfl, -⟩
        · exact prefix_rfl
        · exact prefix_append _ _
      refine .cons ?_ (ih (hfirst.trans hgrow) (fun e he => hcolumns e (mem_cons_of_mem _ he))
        (fun e he => hcomputed e (mem_cons_of_mem _ he)) hrest)
      exact answers_of_addTarget hcount hunseen hfirst (hcolumns e mem_cons_self)
        (hcomputed e mem_cons_self) he ((addTarget_mapM_targets hrest).1.trans hsources)

end Fusion

/-! ### Compounds along a chain -/

namespace Compound

variable {V : Type} [DecidableEq V] {M : Meaning V} {c : Compound} {first : List Expr}
  {a : Aggregate}

/-- A compound that does not group and has its sources for targets gives the rows of its sources. -/
theorem compounded_of_sources_only (hplain : c.isAggregate = false)
    (htargets : c.targets = (range c.sources.length).map .source) (scope : List ColumnRef)
    (rows : Rows V) : M.compounded scope c rows = M.sources scope c rows := by
  have hrow : ∀ row ∈ M.sources scope c rows, row.length = c.sources.length := fun row hrow =>
    Meaning.length_of_mem_projected (M.sources_eq scope c rows ▸ hrow)
  unfold Meaning.compounded
  dsimp only
  rw [hplain, if_neg (by simp), htargets]
  refine (map_congr_left fun row hmem => ?_).trans (map_id' _)
  rw [map_map, ← hrow row hmem]
  exact Meaning.select_range row

/-- More sources behind those of a compound do not change what it groups. -/
theorem GroupsAs.extend (h : c.GroupsAs first a) {targets : List CompoundTarget}
    {sources : List Expr} {fields : List String} {target : Option ModifyTarget}
    (hsources : c.sources <+: sources) : GroupsAs { c with
      fields := fields, target := target, targets := targets, sources := sources } first a where
  isAggregate := h.isAggregate
  sources_begin := h.sources_begin.trans hsources
  calls_eq := h.calls_eq
  groupCount_eq := h.groupCount_eq
  groupCount_le := h.groupCount_le
  operand_lt := h.operand_lt

end Compound

/-- An aggregate makes a compound group by its sources. -/
theorem Fusion.groupsAs_of_addAggregate {f g : Fusion} {a : Aggregate}
    (h : g.addAggregate a = .ok f)
    (hoperands : ∀ call ∈ a.calls, ∀ k ∈ call.operands, k < g.compound.sources.length) :
    f.compound.GroupsAs g.compound.sources a ∧ f.compound.filter = g.compound.filter ∧
      f.compound.targets = a.targets g.compound.sources.length := by
  obtain ⟨_, hcount, h⟩ := Result.bind_eq_ok.mp h
  obtain rfl := Result.pure_eq_ok.mp h
  refine ⟨?_, rfl, rfl⟩
  exact {
    isAggregate := rfl
    sources_begin := prefix_rfl
    calls_eq := rfl
    groupCount_eq := rfl
    groupCount_le := of_decide_eq_true (Result.ensure_eq_ok.mp hcount)
    operand_lt := hoperands }

namespace Plan

variable {p : Plan} {V : Type} [DecidableEq V] {M : Meaning V} {id last input x : NodeId}
  {ids joinRoots : List NodeId} {rows : Rows V} {stage : ChainStage} {j : Project}

/-! ### The rows of a chain -/

/-- The rows that a node makes from rows of its inputs. -/
def nodeRows (p : Plan) (M : Meaning V) (id : NodeId) (inputs : List (Rows V)) : Rows V :=
  M.node (p.op id) (p.columnsOf (p.reads id)) ((p.inputs id).map p.columnCount) inputs

/-- The rows that nodes make one after the other, each from the rows of the one before. -/
def rowsAlong (p : Plan) (M : Meaning V) (ids : List NodeId) (rows : Rows V) : Rows V :=
  ids.foldl (fun rows id => p.nodeRows M id [rows]) rows

theorem rowsAlong_concat (p : Plan) (M : Meaning V) (ids : List NodeId) (id : NodeId)
    (rows : Rows V) :
    p.rowsAlong M (ids ++ [id]) rows = p.nodeRows M id [p.rowsAlong M ids rows] := foldl_concat ..

theorem nodeRows_filter {c : Filter} (hop : p.op id = .filter c) (hread : p.inputs id = [x]) :
    p.nodeRows M id [rows] = M.filtered (p.columnsOf (p.exposed x)) c.condition rows := by
  rw [nodeRows, reads_of_input (by rw [hop]; rfl) hread, hop]
  rfl

theorem nodeRows_project (hop : p.op id = .project j) (hread : p.inputs id = [x]) :
    p.nodeRows M id [rows] =
      M.projected j.exprs (rows.map (M.env (p.columnsOf (p.exposed x)))) := by
  rw [nodeRows, reads_of_input (by rw [hop]; rfl) hread, hop]
  rfl

theorem nodeRows_aggregate {a : Aggregate} (hop : p.op id = .aggregate a) :
    p.nodeRows M id [rows] = (M.groups a.groupCount rows).map (M.grouped a) := by
  rw [nodeRows, hop]
  rfl

/-- What a node computes over an aggregate is computed from the first key at a row of a group: it
calls no window function, and there is a key. -/
def FromFirstKey (p : Plan) (id x : NodeId) : Prop :=
  ∀ e ∈ (p.op id).exprs, e.isColumn = false → e.hasWindow = false ∧ p.isFirstKey ⟨x, 0⟩ = true

instance (p : Plan) (id x : NodeId) : Decidable (p.FromFirstKey id x) :=
  inferInstanceAs (Decidable (∀ _ ∈ _, _))

/-- The nodes of a chain may be computed from its first projection: no filter reads a node twice,
and what a projection computes over an aggregate it computes from the first key. -/
def Inlinable (p : Plan) (ids : List NodeId) : Prop :=
  (∀ id ∈ ids, (p.op id).name = "Filter" → (p.reads id).Nodup) ∧
    ∀ id ∈ ids, ∀ x ∈ ids, x ∈ p.inputs id → (p.op x).name = "Aggregate" → p.FromFirstKey id x

instance (p : Plan) (ids : List NodeId) : Decidable (p.Inlinable ids) :=
  inferInstanceAs (Decidable (_ ∧ _))

theorem Inlinable.mono {ids' : List NodeId} (h : p.Inlinable ids) (hsub : ids' ⊆ ids) :
    p.Inlinable ids' :=
  ⟨fun id hid => h.1 id (hsub hid), fun id hid x hx => h.2 id (hsub hid) x (hsub hx)⟩

omit [DecidableEq V] in
/-- Read through a filter, expressions have the values that they have over it. -/
theorem projected_columnAt {c : Filter} (hp : p.Arranged p.order) (hx : x ∈ p.order)
    (hop : p.op x = .filter c) (hread : p.inputs x = [input]) (hnodup : (p.exposed input).Nodup)
    {exprs : List Expr}
    (hexprs : ∀ e ∈ exprs, ∀ d ∈ e.columns, d.source = x ∧ d.index < p.columnCount x) :
    M.projected (exprs.map (Expr.mapColumns (p.columnAt input)))
        (rows.map (M.env (p.columnsOf (p.exposed input)))) =
      M.projected exprs (rows.map (M.env (p.columnsOf (p.exposed x)))) := by
  refine Meaning.projected_env_mapColumns (fun e he d hd => ?_) rows
  obtain ⟨rfl, hlt⟩ := hexprs e he d hd
  have hlive : input ∈ p.order := hp.mem_of_input hx (hread ▸ mem_singleton_self input)
  have hcount : (p.columnsOf (p.exposed input)).length = p.columnCount d.source := by
    rw [length_columnsOf, ← hp.columnCount_eq_sum_exposed hlive,
      hp.columnCount_of_first hx (by rw [hop]; rfl) hread]
  have hget : d.index < (p.columnsOf (p.exposed input)).length := hcount ▸ hlt
  rw [columnAt, getElem?_eq_getElem hget, Option.getD_some,
    (nodup_columnsOf hnodup).idxOf_getElem, exposed_of_not_join (by rw [hop]; rfl)]
  exact (idxOf_columnsOf_cons hlt).symm

end Plan

/-! ### The compound so far -/

namespace Fusion

open Plan

variable {V : Type} [DecidableEq V]

/-- What the compound so far makes of rows of the input, at a stage of a chain. Up to the first
projection it filters, then it has a source for each column, and at last it is what the chain is. -/
def Evaluates (p : Plan) (M : Meaning V) (input : NodeId) (rows : Rows V) (ids : List NodeId)
    (f : Fusion) : ChainStage → Prop
  | .start | .filtered => f.compound.isAggregate = false ∧
    p.rowsAlong M ids rows = M.passed (p.columnsOf (p.exposed input)) f.compound.filter rows
  | .projected => f.compound.isAggregate = false ∧
    f.compound.targets = (range f.compound.sources.length).map .source ∧
      p.rowsAlong M ids rows = M.sources (p.columnsOf (p.exposed input)) f.compound rows
  | .grouped => M.compounded (p.columnsOf (p.exposed input)) f.compound rows =
      p.rowsAlong M ids rows ∧
    ∀ last ∈ ids.getLast?, ∀ a, p.op last = .aggregate a →
      ∃ first, f.compound.GroupsAs first a ∧ f.compound.targets = a.targets first.length

end Fusion

namespace Plan

open Fusion

variable {p : Plan} {V : Type} [DecidableEq V] {M : Meaning V} {id last input x : NodeId}
  {ids joinRoots : List NodeId} {rows : Rows V} {stage : ChainStage} {j : Project}
  {f g : Fusion}

/-- A filter begins a chain. -/
theorem fuseNode_filter_evaluates {c : Filter} (hop : p.op id = .filter c)
    (hinput : p.inputs id = [input]) (h : p.fuseNode .start id = .ok f) :
    f.Evaluates p M input rows [id] .filtered := by
  obtain ⟨k, hk, rfl⟩ := fuseNode_eq_ok.mp h
  rw [hop] at hk
  obtain ⟨-, -, hk⟩ := Result.bind_eq_ok.mp hk
  obtain rfl := Result.pure_eq_ok.mp hk
  exact ⟨rfl, nodeRows_filter hop hinput⟩

/-- The first projection supplies the sources. -/
theorem fuseNode_first_evaluates (hop : p.op id = .project j) (hread : p.inputs id = [input])
    (h : p.fuseNode .start id = .ok f) : f.Evaluates p M input rows [id] .projected := by
  obtain ⟨exprs, hexprs, rfl⟩ := fuseNode_first hop rfl hread h
  obtain rfl := Except.ok.inj hexprs
  refine ⟨rfl, rfl, ?_⟩
  rw [Meaning.sources_eq]
  exact nodeRows_project hop hread

/-- The first projection is read through the filter. -/
theorem fuseNode_filtered_evaluates {c : Filter} (hp : p.WellFormed) (hid : id ∈ p.order)
    (hop : p.op id = .project j) (hread : p.inputs id = [x]) (hfilter : p.op x = .filter c)
    (hinput : p.inputs x = [input]) (hnode : g.filterNode = some x)
    (hprojected : g.projected = false) (hnodup : (p.exposed input).Nodup)
    (hg : g.Evaluates p M input rows [x] .filtered) (h : p.fuseNode g id = .ok f) :
    f.Evaluates p M input rows ([x] ++ [id]) .projected := by
  obtain ⟨hplain, hpassed⟩ := hg
  obtain ⟨exprs, hexprs, rfl⟩ := fuseNode_first hop hprojected hread h
  rw [if_pos hnode] at hexprs
  have hx : x ∈ p.order := hp.arranged.mem_of_input hid (hread ▸ mem_singleton_self x)
  have hlive : input ∈ p.order := hp.arranged.mem_of_input hx (hinput ▸ mem_singleton_self input)
  have hcolumns : ∀ e ∈ j.exprs, ∀ d ∈ e.columns, d.source = x ∧ d.index < p.columnCount x := by
    intro e he d hd
    have hmem : d ∈ (p.op id).columns := hop ▸ Operator.mem_columns.mpr ⟨e, he, hd⟩
    obtain rfl := hp.source_eq hid (by rw [hop]; rfl) hread (by rw [hfilter]; rfl) hmem
    exact ⟨rfl, (hp.reads_of_mem hid hmem).2⟩
  obtain rfl := readThroughFilter_eq hp.arranged hlive hinput
    (fun e he d hd => (hcolumns e he d hd).1) hexprs
  refine ⟨hplain, rfl, ?_⟩
  rw [Meaning.sources_eq, rowsAlong_concat, hpassed, nodeRows_project hop hread]
  exact (projected_columnAt hp.arranged hx hfilter hinput hnodup hcolumns).symm

/-- An aggregate groups the rows of the first projection. -/
theorem fuseNode_aggregate_evaluates {a : Aggregate} (hop : p.op id = .aggregate a)
    (hcomputes : g.Computes p input last) (hoperands : ∀ k ∈ (p.op id).operands,
      k < p.columnCount last) (hg : g.Evaluates p M input rows ids .projected)
    (h : p.fuseNode g id = .ok f) : f.Evaluates p M input rows (ids ++ [id]) .grouped := by
  obtain ⟨-, htargets, hrows⟩ := hg
  obtain ⟨k, hk, rfl⟩ := fuseNode_eq_ok.mp h
  rw [hop] at hk
  have hlength : g.compound.sources.length = p.columnCount last := by
    rw [← hcomputes.width, htargets, length_map, length_range]
  obtain ⟨hgroups, hfilter, hkTargets⟩ := groupsAs_of_addAggregate hk fun call hcall k hk => by
    rw [hlength]
    exact hoperands k (by rw [hop]; exact mem_flatMap.mpr ⟨call, hcall, hk⟩)
  refine ⟨?_, fun last' hlast' b hb => ?_⟩
  · rw [rowsAlong_concat, nodeRows_aggregate hop, hrows, Meaning.sources_eq, ← hfilter]
    exact hgroups.compounded_eq _ rows hkTargets
  · rw [getLast?_concat] at hlast'
    obtain rfl := Option.some.inj hlast'
    cases hop.symm.trans hb
    exact ⟨_, hgroups, hkTargets⟩

/-- What the projection that ends a chain computes, it computes from the columns of the aggregate,
and from the first key alone unless it is a column. -/
theorem leaves_of_endsChain (hp : p.WellFormed) (hid : id ∈ p.order) (hop : p.op id = .project j)
    (hread : p.inputs id = [last]) (hlast : (p.op last).isJoin = false)
    (hend : p.endsChain id = true) : ∀ e ∈ j.exprs, (∀ d ∈ e.columns, d.source = last) ∧
      (e.isColumn = false → ∀ l ∈ e.leaves, l = .column ⟨last, 0⟩) := by
  intro e he
  have hcolumns : ∀ d ∈ e.columns, d.source = last := by
    intro d hd
    refine hp.source_eq hid (by rw [hop]; rfl) hread hlast ?_
    exact hop ▸ Operator.mem_columns.mpr ⟨e, he, hd⟩
  have hpass : p.isPassThrough e = true := by
    unfold endsChain at hend
    rw [hop] at hend
    exact all_eq_true.mp hend e he
  refine ⟨hcolumns, ?_⟩
  intro hcolumn l hl
  cases l with
  | column d =>
      have hd : d ∈ e.columns := Expr.mem_columns_iff.mpr hl
      obtain ⟨a, -, hfirst, -⟩ := isPassThrough_eq_true hpass hcolumn hd
      rw [← hcolumns d hd, ← hfirst]
  | _ =>
      rw [isPassThrough, hcolumn, Bool.false_or, all_eq_true] at hpass
      cases hpass _ hl

/-- A projection over the aggregate gets targets that have the values of its expressions. -/
theorem fuseProject_answers {a : Aggregate} {first : List Expr} {k : Fusion}
    (hgroups : g.compound.GroupsAs first a) (htargets : g.compound.targets = a.targets first.length)
    (hcomputes : g.Computes p input last)
    (hunseen : ∀ s ∈ first, ∀ c ∈ s.columns, c.source ≠ last)
    (hcolumns : ∀ e ∈ j.exprs, ∀ d ∈ e.columns, d.source = last)
    (hcomputed : ∀ e ∈ j.exprs, e.isColumn = false →
      e.hasWindow = false ∧ 0 < a.groupCount ∧ ∀ l ∈ e.leaves, l = .column ⟨last, 0⟩)
    (h : p.fuseProject g id j = .ok k) : k.compound.GroupsAs first a ∧
      k.compound.filter = g.compound.filter ∧
        Forall₂ (k.compound.Answers first a last) j.exprs k.compound.targets := by
  rcases fuseProject_cases h with ⟨-, targets, sources, hmade, rfl⟩ | ⟨hunprojected, -⟩
  · rw [htargets] at hmade
    rcases hmade with ⟨rfl, hrun⟩ | ⟨last', hlast', hrun⟩
    · refine ⟨hgroups.extend prefix_rfl, rfl, ?_⟩
      have hpicked := (forall₂_and_left _ _).mpr ⟨hcolumns, Result.mapM_eq_ok.mp hrun⟩
      exact hpicked.imp fun e t ⟨hcolumns, ht⟩ => answers_of_targetOf hcolumns ht
    · obtain rfl := Option.some.inj (hcomputes.lastNode.symm.trans hlast')
      refine ⟨hgroups.extend (addTarget_mapM_targets hrun).1, rfl, ?_⟩
      exact answers_of_addTarget_mapM hgroups.groupCount_le hunseen hgroups.first_begins hcolumns
        hcomputed hrun prefix_rfl
  · cases hcomputes.projected.symm.trans hunprojected

/-- The projection behind an aggregate has the values of its targets. -/
theorem fuseNode_later_evaluates {a : Aggregate} (hp : p.WellFormed) (hid : id ∈ p.order)
    (hop : p.op id = .project j) (hread : p.inputs id = [last]) (hlive : last ∈ p.order)
    (haggregate : p.op last = .aggregate a) (hlast : ids.getLast? = some last)
    (hbelow : [input, last] <+ p.order) (hend : p.endsChain id = true)
    (hkeys : p.FromFirstKey id last)
    (hcomputes : g.Computes p input last) (hg : g.Evaluates p M input rows ids .grouped)
    (h : p.fuseNode g id = .ok f) : f.Evaluates p M input rows (ids ++ [id]) .grouped := by
  obtain ⟨hrows, hgroups⟩ := hg
  obtain ⟨first, hgroups, htargets⟩ := hgroups last hlast a haggregate
  have hjoin : (p.op last).isJoin = false := by
    rw [haggregate]
    rfl
  have hleaves := leaves_of_endsChain hp hid hop hread hjoin hend
  have hunseen : ∀ s ∈ first, ∀ c ∈ s.columns, c.source ≠ last := by
    intro s hs c hc heq
    refine hp.arranged.not_mem_exposed hbelow (heq ▸ (column_of_inSight ?_ hc).1)
    exact hcomputes.sees s (mem_append_right _ (hgroups.first_begins.subset hs))
  have hcomputed : ∀ e ∈ j.exprs, e.isColumn = false →
      e.hasWindow = false ∧ 0 < a.groupCount ∧ ∀ l ∈ e.leaves, l = .column ⟨last, 0⟩ := by
    intro e he hcolumn
    obtain ⟨hwindow, hfirst⟩ := hkeys e (by rw [hop]; exact he) hcolumn
    refine ⟨hwindow, ?_, (hleaves e he).2 hcolumn⟩
    unfold isFirstKey at hfirst
    rw [haggregate, Bool.and_eq_true, decide_eq_true_eq] at hfirst
    exact hfirst.2
  obtain ⟨k, hk, rfl⟩ := fuseNode_eq_ok.mp h
  rw [hop] at hk
  obtain ⟨hgroups', hfilter, hanswers⟩ := fuseProject_answers hgroups htargets hcomputes hunseen
    (fun e he => (hleaves e he).1) hcomputed hk
  have hwidth : p.columnsOf (p.exposed last) = ColumnRef.range last a.width := by
    rw [exposed_of_not_join hjoin, columnsOf, flatMap_singleton,
      hp.arranged.columnCount_of_own hlive (by rw [haggregate]; rfl)]
  refine ⟨?_, ?_⟩
  · rw [rowsAlong_concat, nodeRows_project hop hread, ← hrows,
      hgroups.compounded_eq _ rows htargets, ← hfilter, hwidth]
    exact hgroups'.compounded_eq_projected _ rows hanswers
  · -- The chain does not end with the aggregate any more.
    intro last' hlast' b hb
    rw [getLast?_concat] at hlast'
    obtain rfl := Option.some.inj hlast'
    cases hop.symm.trans hb

/-- The compound so far makes of the input what the nodes so far make of it. -/
theorem Chained.evaluates (h : p.Chained joinRoots ids stage) (hp : p.WellFormed)
    (hinput : ∀ first ∈ ids.head?, p.inputs first = [input]) (hinlinable : p.Inlinable ids)
    (hoperands : ∀ id ∈ ids, ∀ i ∈ p.inputs id, ∀ k ∈ (p.op id).operands, k < p.columnCount i)
    (hf : ids.foldlM p.fuseNode .start = .ok f) : f.Evaluates p M input rows ids stage := by
  induction h generalizing f with
  | nil =>
      obtain rfl := Except.ok.inj hf
      exact ⟨rfl, rfl⟩
  | @next ids id stage next hchain hid hlink hnext ih =>
      obtain ⟨g, hg, hstep⟩ := Result.foldlM_concat_eq_ok.mp hf
      have hfront : ∀ first ∈ ids.head?, p.inputs first = [input] := fun first hfirst =>
        hinput first (mem_head?_append_of_mem_head? hfirst)
      have htaken := hchain.taken hp hfront hg
      have hevaluates := ih hfront (hinlinable.mono (subset_append_left _ _))
        (fun n hn => hoperands n (mem_append_left _ hn)) hg
      rcases nextStage?_eq_some hnext with ⟨rfl, rfl, c, hop⟩ | ⟨rfl, rfl, j, hop⟩ |
        ⟨rfl, rfl, j, hop⟩ | ⟨rfl, rfl, a, hop⟩
      · obtain ⟨rfl, rfl⟩ := htaken
        exact fuseNode_filter_evaluates hop (hinput id rfl) hstep
      · obtain ⟨rfl, rfl⟩ := htaken
        exact fuseNode_first_evaluates hop (hinput id rfl) hstep
      · obtain ⟨⟨x, c, rfl, hfilter, hnode⟩, hprojected, -⟩ := htaken
        obtain ⟨i, hi, -⟩ := hp.input_of_arity_one hid (by rw [hop]; rfl)
        have hnodup := hinlinable.1 x (mem_append_left _ (mem_singleton_self x))
          (by rw [hfilter]; rfl)
        rw [reads_of_input (by rw [hfilter]; rfl) (hinput x rfl)] at hnodup
        exact fuseNode_filtered_evaluates hp hid hop ((hlink x rfl).inputs_eq hi) hfilter
          (hinput x rfl) hnode hprojected hnodup hevaluates hstep
      · obtain ⟨last, hlast, hcomputes⟩ := htaken
        exact fuseNode_aggregate_evaluates hop hcomputes
          (hoperands id (mem_append_right _ (mem_singleton_self id)) last (hlink last hlast).1)
          hevaluates hstep
  | @close ids id hchain hid hlink hend haggregate ih =>
      obtain ⟨g, hg, hstep⟩ := Result.foldlM_concat_eq_ok.mp hf
      have hfront : ∀ first ∈ ids.head?, p.inputs first = [input] := fun first hfirst =>
        hinput first (mem_head?_append_of_mem_head? hfirst)
      have hevaluates := ih hfront (hinlinable.mono (subset_append_left _ _))
        (fun n hn => hoperands n (mem_append_left _ hn)) hg
      obtain ⟨last, hlast, hcomputes⟩ := hchain.taken hp hfront hg
      have hlastMem : last ∈ ids := mem_of_getLast? hlast
      obtain ⟨j, hop⟩ := endsChain_eq_true hend
      obtain ⟨a, haggregate⟩ := haggregate last hlast
      obtain ⟨i, hi, -⟩ := hp.input_of_arity_one hid (by rw [hop]; rfl)
      have hfirst : ids.head? = some (ids.head (ne_nil_of_mem hlastMem)) := head?_eq_some_head _
      have hkeys := hinlinable.2 id (mem_append_right _ (mem_singleton_self id)) last
        (mem_append_left _ hlastMem) (hlink last hlast).1 (by rw [haggregate]; rfl)
      exact fuseNode_later_evaluates hp hid hop ((hlink last hlast).inputs_eq hi)
        (hchain.subset hlastMem) haggregate hlast
        (hchain.input_before hp.arranged.toOrdered hfirst
          (hfront _ hfirst ▸ mem_singleton_self input) last hlastMem)
        hend hkeys hcomputes hevaluates hstep

/-- **The compound of a chain computes what the chain does**, from any rows of its input. -/
theorem Chained.compounded_eq {first : NodeId} (h : p.Chained joinRoots ids stage)
    (hp : p.WellFormed) (hlength : 2 ≤ ids.length) (hfirst : ids.head? = some first)
    (hinput : p.inputs first = [input]) (hinlinable : p.Inlinable ids)
    (hoperands : ∀ id ∈ ids, ∀ i ∈ p.inputs id, ∀ k ∈ (p.op id).operands, k < p.columnCount i)
    (hf : ids.foldlM p.fuseNode .start = .ok f) :
    M.compounded (p.columnsOf (p.exposed input)) f.compound rows = p.rowsAlong M ids rows := by
  have hevaluates : f.Evaluates p M input rows ids stage := h.evaluates hp (fun x hx => by
    cases hfirst.symm.trans hx
    exact hinput) hinlinable hoperands hf
  cases stage with
  | start =>
      rw [ChainWalk.Chained.of_start h] at hlength
      exact absurd hlength (by decide)
  | filtered => exact absurd (ChainWalk.Chained.length_of_filtered h ▸ hlength) (by decide)
  | projected =>
      obtain ⟨hplain, htargets, hrows⟩ := hevaluates
      rw [hrows, Compound.compounded_of_sources_only hplain htargets]
  | grouped => exact hevaluates.1

end Plan

end QueryPlan
