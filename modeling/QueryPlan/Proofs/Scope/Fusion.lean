import QueryPlan.Pass.ChainFusion
import QueryPlan.Proofs.Plan.Uses
import QueryPlan.Proofs.Plan.WellFormed
/-!
# QueryPlan.Proofs.Scope.Fusion

**The compound of a chain reads the input of the chain.** A chain grows by nodes of which each is
the only reader of the one before it (`Plan.Chained`). The compound that is made from it has an
expression for everything that the chain computes, and all columns in these expressions are
columns of the input of the first node (`Chained.fused`): a projection over the filter is read
through it, and a projection over an aggregate is replaced by what stands behind its columns.
-/

namespace QueryPlan

open List

namespace Plan

variable {p : Plan} {id last input : NodeId} {ids : List NodeId} {joinRoots : List NodeId}
  {stage next : ChainStage}

/-! ### Leaves in sight -/

/-- A leaf that a node over an input may have: a column of the input, or no reference. -/
def InSight (p : Plan) (input : NodeId) : Leaf → Prop
  | .column c => c.source ∈ p.exposed input ∧ c.index < p.columnCount c.source
  | .positional _ => False
  | _ => True

theorem WellFormed.inSight (h : p.WellFormed) (hid : id ∈ p.order)
    (hop : (p.op id).isJoin = false) (hinput : p.inputs id = [input]) {e : Expr}
    (he : e ∈ (p.op id).exprs) : ∀ l ∈ e.leaves, p.InSight input l := by
  intro l hl
  cases l with
  | column c =>
      have hread := h.reads_of_mem hid
        (Operator.mem_columns.mpr ⟨e, he, Expr.mem_columns_iff.mpr hl⟩)
      rwa [reads_of_input hop hinput] at hread
  | positional i =>
      have hbound := Expr.hasPositional_eq_false_iff.mp (h.bound id hid e he) _ hl
      exact absurd hbound (by simp [Leaf.isPositional])
  | _ => trivial

/-- What an expression over a node that does not join has at its leaves are columns of the node and
what may be anywhere. -/
theorem InSight.of_not_join {l : Leaf} (h : p.InSight last l) (hlast : (p.op last).isJoin = false) :
    p.InSight input l ∨ ∃ i, l = .column ⟨last, i⟩ := by
  cases l with
  | column c =>
      rw [InSight, exposed_of_not_join hlast, mem_singleton] at h
      exact .inr ⟨c.index, by rw [← h.1]⟩
  | positional i => exact False.elim h
  | _ => exact .inl h

theorem hasPositional_of_inSight {e : Expr} (h : ∀ l ∈ e.leaves, p.InSight input l) :
    e.hasPositional = false := by
  rw [Expr.hasPositional_eq_false_iff]
  intro l hl
  have hsight := h l hl
  cases l with
  | positional i => exact False.elim hsight
  | _ => rfl

theorem column_of_inSight {e : Expr} (h : ∀ l ∈ e.leaves, p.InSight input l) {c : ColumnRef}
    (hc : c ∈ e.columns) : c.source ∈ p.exposed input ∧ c.index < p.columnCount c.source :=
  h _ (Expr.mem_columns_iff.mp hc)

/-! ### Chains -/

/-- A node is the only reader of another one. -/
def OnlyReader (p : Plan) (id n : NodeId) : Prop :=
  id ∈ p.inputs n ∧ ∀ m ∈ p.order, id ∈ p.inputs m → m = n

/-- The chains that the walk builds, with the stage that each has reached. -/
inductive Chained (joinRoots : List NodeId) (p : Plan) : List NodeId → ChainStage → Prop
  | nil : Chained joinRoots p [] .start
  | next {ids : List NodeId} {id : NodeId} {stage next : ChainStage} :
    Chained joinRoots p ids stage → id ∈ p.order →
    (∀ last ∈ ids.getLast?, p.OnlyReader last id) →
    p.nextStage? joinRoots stage id = some next → Chained joinRoots p (ids ++ [id]) next
  /-- The last projection, behind an aggregate. -/
  | close {ids : List NodeId} {id : NodeId} : Chained joinRoots p ids .grouped → id ∈ p.order →
    (∀ last ∈ ids.getLast?, p.OnlyReader last id) → p.endsChain id = true →
    (∀ last ∈ ids.getLast?, ∃ a, p.op last = .aggregate a) →
    Chained joinRoots p (ids ++ [id]) .grouped

/-- A chain goes on with a filter, a projection or an aggregate. -/
theorem nextStage?_eq_some (h : p.nextStage? joinRoots stage id = some next) :
    (stage = .start ∧ next = .filtered ∧ ∃ f, p.op id = .filter f) ∨
    (stage = .start ∧ next = .projected ∧ ∃ j, p.op id = .project j) ∨
    (stage = .filtered ∧ next = .projected ∧ ∃ j, p.op id = .project j) ∨
    (stage = .projected ∧ next = .grouped ∧ ∃ a, p.op id = .aggregate a) := by
  unfold nextStage? at h
  split at h
  · next hop =>
    split at h
    · cases h
    · exact .inl ⟨rfl, (Option.some.inj h).symm, _, hop⟩
  · next hop => exact .inr (.inl ⟨rfl, (Option.some.inj h).symm, _, hop⟩)
  · next hop =>
    split at h
    · cases h
    · exact .inr (.inr (.inl ⟨rfl, (Option.some.inj h).symm, _, hop⟩))
  · next hop => exact .inr (.inr (.inr ⟨rfl, (Option.some.inj h).symm, _, hop⟩))
  · cases h

theorem endsChain_eq_true (h : p.endsChain id = true) : ∃ j, p.op id = .project j := by
  unfold endsChain at h
  split at h
  · next hop => exact ⟨_, hop⟩
  · cases h

/-- Chains are made of filters, projections and aggregates. -/
theorem Chained.operator (h : p.Chained joinRoots ids stage) : ∀ id ∈ ids,
    (∃ c, p.op id = .filter c) ∨ (∃ j, p.op id = .project j) ∨ ∃ a, p.op id = .aggregate a := by
  induction h with
  | nil => exact nofun
  | next _ _ _ hnext ih =>
      intro id hid
      rcases mem_append.mp hid with hid | hid
      · exact ih id hid
      · rw [mem_singleton.mp hid]
        rcases nextStage?_eq_some hnext with ⟨-, -, hop⟩ | ⟨-, -, hop⟩ | ⟨-, -, hop⟩ | ⟨-, -, hop⟩
        · exact .inl hop
        · exact .inr (.inl hop)
        · exact .inr (.inl hop)
        · exact .inr (.inr hop)
  | close _ _ _ hend _ ih =>
      intro id hid
      rcases mem_append.mp hid with hid | hid
      · exact ih id hid
      · rw [mem_singleton.mp hid]
        exact .inr (.inl (endsChain_eq_true hend))

/-- A node of a chain takes one input and is no join. -/
theorem Chained.unary (h : p.Chained joinRoots ids stage) :
    ∀ id ∈ ids, (p.op id).arity = .exactly 1 ∧ (p.op id).isJoin = false := by
  intro id hid
  rcases h.operator id hid with ⟨c, hop⟩ | ⟨j, hop⟩ | ⟨a, hop⟩ <;> rw [hop] <;> exact ⟨rfl, rfl⟩

end Plan

/-! ### The compound so far -/

namespace Fusion

open Plan

variable {p : Plan} {input last : NodeId} {f g : Fusion}

/-- The expressions of the compound read the input of the chain. -/
def Sees (p : Plan) (input : NodeId) (f : Fusion) : Prop :=
  ∀ e ∈ (Operator.compound f.compound).exprs, ∀ l ∈ e.leaves, p.InSight input l

/-- The compound computes the columns of the last node. -/
structure Computes (p : Plan) (input last : NodeId) (f : Fusion) : Prop where
  sees : f.Sees p input
  lastNode : f.lastNode = some last
  projected : f.projected = true
  width : f.compound.targets.length = p.columnCount last
  names : f.compound.fields = p.columnNames last

/-- The compound has as many names as columns. -/
theorem Computes.fields (h : f.Computes p input last) (hp : p.WellFormed) (hlast : last ∈ p.order) :
    f.compound.fields.length = f.compound.targets.length := by
  rw [h.names, h.width, hp.arranged.length_columnNames hp.fieldsMatch last hlast]

/-- Nothing is replaced in an expression that does not refer to the node. -/
theorem inlineSources_of_unseen {sources : List Expr} {e : Expr}
    (h : ∀ c ∈ e.columns, c.source ≠ last) (depth : Nat) :
    inlineSources last sources (depth + 1) e = .ok e := by
  refine (Expr.mapLeavesM_ok (g := Expr.leaf) fun l hl => ?_).trans
    (congrArg Except.ok e.mapLeaves_leaf)
  cases l with
  | column c => exact if_neg (h c (Expr.mem_columns_iff.mpr hl))
  | _ => rfl

/-- An expression with the sources in place of the columns of a node has leaves of the sources, and
its own. -/
theorem leaves_inlineSources {P : Leaf → Prop} {sources : List Expr} {depth : Nat} {e e' : Expr}
    (hsources : ∀ s ∈ sources, ∀ l ∈ s.leaves, P l)
    (he : ∀ l ∈ e.leaves, P l ∨ ∃ i, l = .column ⟨last, i⟩)
    (h : inlineSources last sources depth e = .ok e') : ∀ l ∈ e'.leaves, P l := by
  induction depth generalizing e e' with
  | zero => cases h
  | succ depth ih =>
      intro k hk
      obtain ⟨l, hl, d, hd, hk⟩ := Expr.mem_leaves_of_mapLeavesM h k hk
      split at hd
      · next c =>
        split at hd
        · obtain ⟨s, hs, hd⟩ := Result.bind_eq_ok.mp hd
          have hsource := hsources s (mem_of_getElem? (Result.ofOption_eq_ok.mp hs))
          split at hd
          · exact hsource k (Result.pure_eq_ok.mp hd ▸ hk)
          · exact ih (fun l hl => .inl (hsource l hl)) hd k hk
        · next hne =>
          obtain rfl := Except.ok.inj hd
          rw [Expr.leaves, mem_singleton] at hk
          rw [hk]
          refine (he _ hl).resolve_right ?_
          rintro ⟨i, hi⟩
          cases hi
          exact hne rfl
      · next hleaf =>
        obtain rfl := Except.ok.inj hd
        rw [Expr.leaves, mem_singleton] at hk
        rw [hk]
        refine (he _ hl).resolve_right ?_
        rintro ⟨i, hi⟩
        exact hleaf _ hi

theorem mem_of_targetOf {targets : List CompoundTarget} {t : CompoundTarget} {e : Expr}
    (h : targetOf targets e = .ok t) : t ∈ targets := by
  unfold targetOf at h
  split at h
  · exact mem_of_getElem? (Result.ofOption_eq_ok.mp h)
  · obtain ⟨_, -, h⟩ := Result.bind_eq_ok.mp h
    cases h

/-- An expression of a later projection picks a target if it is a column. If not, it gives a source
and the target for that. -/
theorem addTarget_eq_ok {targets : List CompoundTarget} {t : CompoundTarget} {e : Expr}
    {sources sources' : List Expr} (h : addTarget targets last e sources = .ok (t, sources')) :
    (sources' = sources ∧ t ∈ targets) ∨ ∃ source,
      inlineSources last sources (sources.length + 1) e = .ok source ∧
        sources' = sources ++ [source] ∧ t = .source sources.length := by
  unfold addTarget at h
  split at h
  · obtain ⟨a, ha, h⟩ := Result.bind_eq_ok.mp h
    obtain ⟨rfl, rfl⟩ := Prod.mk.inj (Except.ok.inj h)
    exact .inl ⟨rfl, mem_of_targetOf ha⟩
  · obtain ⟨⟨source, s⟩, hsource, h⟩ := Result.bind_eq_ok.mp h
    obtain ⟨a, ha, hs⟩ := Result.bind_eq_ok.mp hsource
    cases hs
    cases h
    exact .inr ⟨source, ha, rfl, rfl⟩

/-- The expressions of a later projection give a target each, and what every new source keeps holds
of the sources. -/
theorem addTarget_mapM_induct {targets ts : List CompoundTarget} {es sources sources' : List Expr}
    {motive : List Expr → Prop} (start : motive sources)
    (step : ∀ e ∈ es, ∀ old source, motive old →
      inlineSources last old (old.length + 1) e = .ok source → motive (old ++ [source]))
    (h : (es.mapM (addTarget targets last)).run sources = .ok (ts, sources')) :
    ts.length = es.length ∧ motive sources' := by
  induction es generalizing sources ts with
  | nil =>
      cases h
      exact ⟨rfl, start⟩
  | cons e es ih =>
      rw [mapM_cons] at h
      obtain ⟨⟨t, middle⟩, he, h⟩ := Result.bind_eq_ok.mp h
      obtain ⟨⟨rest, final⟩, hrest, h⟩ := Result.bind_eq_ok.mp h
      cases h
      have hmiddle : motive middle := by
        rcases addTarget_eq_ok he with ⟨rfl, -⟩ | ⟨source, hinline, rfl, -⟩
        · exact start
        · exact step e mem_cons_self sources source start hinline
      obtain ⟨hlength, hfinal⟩ := ih hmiddle (fun e he => step e (mem_cons_of_mem _ he)) hrest
      exact ⟨congrArg (· + 1) hlength, hfinal⟩

/-- The sources of a later projection have leaves of those before, and its own. -/
theorem addTarget_mapM {P : Leaf → Prop} {targets ts : List CompoundTarget}
    {es sources sources' : List Expr} (hsources : ∀ s ∈ sources, ∀ l ∈ s.leaves, P l)
    (hes : ∀ e ∈ es, ∀ l ∈ e.leaves, P l ∨ ∃ i, l = .column ⟨last, i⟩)
    (h : (es.mapM (addTarget targets last)).run sources = .ok (ts, sources')) :
    ts.length = es.length ∧ ∀ s ∈ sources', ∀ l ∈ s.leaves, P l := by
  refine addTarget_mapM_induct (motive := fun sources => ∀ s ∈ sources, ∀ l ∈ s.leaves, P l)
    hsources (fun e he old source hold hinline s hs => ?_) h
  rcases mem_append.mp hs with hs | hs
  · exact hold s hs
  · rw [mem_singleton.mp hs]
    exact leaves_inlineSources hold (hes e he) hinline

/-- What is known of the compound at a stage of a chain. -/
def Taken (p : Plan) (input : NodeId) (ids : List NodeId) (f : Fusion) : ChainStage → Prop
  | .start => ids = [] ∧ f = .start
  | .filtered =>
    (∃ id c, ids = [id] ∧ p.op id = .filter c ∧ f.filterNode = some id) ∧
      f.projected = false ∧ f.Sees p input
  | _ => ∃ last, ids.getLast? = some last ∧ f.Computes p input last

end Fusion

namespace Plan

open Fusion

variable {p : Plan} {id last input : NodeId} {f g : Fusion} {j : Project}

theorem fuseNode_eq_ok : p.fuseNode g id = .ok f ↔
    ∃ k, (match p.op id with
      | .filter c => g.addFilter id c.condition
      | .project j => p.fuseProject g id j
      | .aggregate a => g.addAggregate a
      | op => .fail (.unfusable op.name)) = .ok k ∧ f = { k with lastNode := some id } := by
  have hnode : p.fuseNode g id = (match p.op id with
      | .filter c => g.addFilter id c.condition
      | .project j => p.fuseProject g id j
      | .aggregate a => g.addAggregate a
      | op => .fail (.unfusable op.name)) >>= fun k => .ok { k with lastNode := some id } := by
    unfold fuseNode
    cases p.op id <;> rfl
  rw [hnode, Result.bind_eq_ok]
  exact exists_congr fun k => and_congr_right fun _ => Result.pure_eq_ok.trans eq_comm

/-- A projection rearranges the targets and adds sources, or supplies the sources if it is the first
one. -/
theorem fuseProject_cases (h : p.fuseProject g id j = .ok f) :
    (g.projected = true ∧ ∃ targets sources,
      ((sources = g.compound.sources ∧
          j.exprs.mapM (targetOf g.compound.targets) = .ok targets) ∨
        ∃ last, g.lastNode = some last ∧
          (j.exprs.mapM (addTarget g.compound.targets last)).run g.compound.sources =
            .ok (targets, sources)) ∧
      f = { g with compound := { g.compound with
        fields := j.fields, target := j.target, targets := targets, sources := sources } }) ∨
    (g.projected = false ∧ ∃ exprs,
      (exprs = j.exprs ∨ ∃ filter, p.readThroughFilter filter j.exprs = .ok exprs) ∧
      f = { g with compound := { g.compound with
        fields := j.fields, target := j.target } }.addSources exprs) := by
  unfold fuseProject at h
  dsimp only at h
  split at h
  · next hprojected =>
    refine .inl ⟨hprojected, ?_⟩
    unfold addTargets at h
    dsimp only at h
    split at h
    · obtain ⟨targets, htargets, h⟩ := Result.bind_eq_ok.mp h
      exact ⟨targets, _, .inl ⟨rfl, htargets⟩, (Result.pure_eq_ok.mp h).symm⟩
    · obtain ⟨last, hlast, h⟩ := Result.bind_eq_ok.mp h
      obtain ⟨⟨targets, sources⟩, hrun, h⟩ := Result.bind_eq_ok.mp h
      exact ⟨targets, sources, .inr ⟨last, Result.required_eq_ok.mp hlast, hrun⟩,
        (Result.pure_eq_ok.mp h).symm⟩
  · next hprojected =>
    refine .inr ⟨by simpa using hprojected, ?_⟩
    obtain ⟨input, -, h⟩ := Result.bind_eq_ok.mp h
    split at h
    · obtain ⟨exprs, hexprs, h⟩ := Result.bind_eq_ok.mp h
      exact ⟨exprs, .inr ⟨input, hexprs⟩, (Result.pure_eq_ok.mp h).symm⟩
    · exact ⟨j.exprs, .inl rfl, (Result.pure_eq_ok.mp h).symm⟩

/-- A filter begins a chain. -/
theorem fuseNode_filter {c : Filter} (hp : p.WellFormed) (hid : id ∈ p.order)
    (hop : p.op id = .filter c) (hinput : p.inputs id = [input])
    (h : p.fuseNode .start id = .ok f) : f.Taken p input [id] .filtered := by
  obtain ⟨k, hk, rfl⟩ := fuseNode_eq_ok.mp h
  rw [hop] at hk
  obtain ⟨-, -, hk⟩ := Result.bind_eq_ok.mp hk
  obtain rfl := Result.pure_eq_ok.mp hk
  refine ⟨⟨id, c, rfl, hop, rfl⟩, rfl, fun e he => ?_⟩
  refine hp.inSight hid (by rw [hop]; rfl) hinput ?_
  rw [hop]
  exact he

/-- The first projection supplies the sources. -/
theorem computes_addSources (hp : p.WellFormed) (hid : id ∈ p.order) (hop : p.op id = .project j)
    {exprs : List Expr} (hlength : exprs.length = j.exprs.length)
    (hfilter : ∀ e ∈ g.compound.filter, ∀ l ∈ e.leaves, p.InSight input l)
    (hexprs : ∀ e ∈ exprs, ∀ l ∈ e.leaves, p.InSight input l) :
    Computes p input id { ({ g with compound := { g.compound with
      fields := j.fields, target := j.target } }.addSources exprs) with lastNode := some id } where
  sees e he := by
    rcases mem_append.mp he with he | he
    · exact hfilter e (Option.mem_toList.mp he)
    · exact hexprs e he
  lastNode := rfl
  projected := rfl
  width := by
    rw [hp.arranged.columnCount_of_own hid (by rw [hop]; rfl), ← hlength]
    simp [addSources]
  names := (hp.arranged.columnNames_of_own hid (by rw [hop]; rfl)).symm

/-- The first projection supplies the sources, read through the filter if it stands over that. -/
theorem fuseNode_first (hop : p.op id = .project j) (hprojected : g.projected = false)
    (hread : p.inputs id = [last]) (h : p.fuseNode g id = .ok f) :
    ∃ exprs, (if g.filterNode = some last then p.readThroughFilter last j.exprs
        else .ok j.exprs) = .ok exprs ∧
      f = { ({ g with compound := { g.compound with
        fields := j.fields, target := j.target } }.addSources exprs) with lastNode := some id } := by
  obtain ⟨k, hk, rfl⟩ := fuseNode_eq_ok.mp h
  rw [hop] at hk
  dsimp only at hk
  unfold fuseProject at hk
  dsimp only at hk
  rw [hprojected, if_neg (by simp), Result.bind_ok (Node.singleInput_eq_ok.mpr hread)] at hk
  split at hk
  · next hfilter =>
    obtain ⟨exprs, hexprs, hk⟩ := Result.bind_eq_ok.mp hk
    obtain rfl := Result.pure_eq_ok.mp hk
    exact ⟨exprs, by rw [if_pos hfilter, hexprs], rfl⟩
  · next hfilter =>
    obtain rfl := Result.pure_eq_ok.mp hk
    exact ⟨j.exprs, by rw [if_neg hfilter], rfl⟩

theorem fuseNode_first_project (hp : p.WellFormed) (hid : id ∈ p.order)
    (hop : p.op id = .project j) (hinput : p.inputs id = [input])
    (h : p.fuseNode .start id = .ok f) : f.Computes p input id := by
  obtain ⟨exprs, hexprs, rfl⟩ := fuseNode_first hop rfl hinput h
  obtain rfl := Except.ok.inj hexprs
  refine computes_addSources hp hid hop rfl (fun e he => by cases he) fun e he => ?_
  refine hp.inSight hid (by rw [hop]; rfl) hinput ?_
  rw [hop]
  exact he

/-- Expressions over a filter, read through it, read the input of the filter. -/
theorem inSight_readThroughFilter {filter : NodeId} {exprs exprs' : List Expr} {l : List NodeId}
    (hp : p.Arranged l) (hlive : input ∈ l) (hinput : p.inputs filter = [input])
    (hexprs : ∀ e ∈ exprs, ∀ l ∈ e.leaves, p.InSight filter l)
    (hfilter : (p.op filter).isJoin = false)
    (h : p.readThroughFilter filter exprs = .ok exprs') :
    exprs'.length = exprs.length ∧ ∀ e ∈ exprs', ∀ l ∈ e.leaves, p.InSight input l := by
  obtain ⟨i, hi, h⟩ := Result.bind_eq_ok.mp h
  obtain ⟨columns, hcolumns, h⟩ := Result.bind_eq_ok.mp h
  obtain ⟨rfl, -⟩ := cons.inj (hinput.symm.trans (Node.singleInput_eq_ok.mp hi))
  rw [hp.output_eq hlive] at hcolumns
  obtain rfl := Except.ok.inj hcolumns
  refine ⟨(Result.mapM_eq_ok.mp h).length_eq.symm, fun e' he' k hk => ?_⟩
  obtain ⟨e, he, hmap⟩ := Result.mapM_mem_right h he'
  obtain ⟨l, hl, d, hd, hk⟩ := Expr.mem_leaves_of_mapLeavesM hmap k hk
  have hsight := hexprs e he l hl
  cases l with
  | column c =>
      obtain ⟨c', hc', hd⟩ := Result.bind_eq_ok.mp hd
      obtain rfl := Result.pure_eq_ok.mp hd
      rw [InSight, exposed_of_not_join hfilter, mem_singleton] at hsight
      dsimp only at hc'
      rw [if_pos hsight.1, Result.ofOption_eq_ok] at hc'
      rw [mem_singleton.mp hk]
      exact mem_columnsOf.mp (mem_of_getElem? hc')
  | positional i => exact False.elim hsight
  | _ =>
      obtain rfl := Except.ok.inj hd
      rw [mem_singleton.mp hk]
      exact hsight

/-- A projection over the filter of a chain supplies the sources. -/
theorem fuseNode_filtered_project {c : Filter} {filter : NodeId} (hp : p.WellFormed)
    (hid : id ∈ p.order) (hop : p.op id = .project j) (hread : p.inputs id = [filter])
    (hfilter : p.op filter = .filter c) (hinput : p.inputs filter = [input])
    (hnode : g.filterNode = some filter) (hprojected : g.projected = false)
    (hsees : g.Sees p input) (h : p.fuseNode g id = .ok f) : f.Computes p input id := by
  obtain ⟨exprs, hexprs, rfl⟩ := fuseNode_first hop hprojected hread h
  rw [if_pos hnode] at hexprs
  have hlive : filter ∈ p.order := hp.arranged.mem_of_input hid (hread ▸ mem_singleton_self filter)
  have hbelow : input ∈ p.order := hp.arranged.mem_of_input hlive (hinput ▸ mem_singleton_self _)
  obtain ⟨hlength, hexprs⟩ := inSight_readThroughFilter hp.arranged hbelow hinput
    (fun e he => hp.inSight hid (by rw [hop]; rfl) hread (by rw [hop]; exact he))
    (by rw [hfilter]; rfl) hexprs
  refine computes_addSources hp hid hop hlength (fun e he => ?_) hexprs
  exact hsees e (mem_append_left _ (Option.mem_toList.mpr he))

/-- An aggregate supplies its keys. -/
theorem fuseNode_aggregate {a : Aggregate} (hp : p.WellFormed) (hid : id ∈ p.order)
    (hop : p.op id = .aggregate a) (hg : g.Computes p input last)
    (h : p.fuseNode g id = .ok f) : f.Computes p input id := by
  obtain ⟨k, hk, rfl⟩ := fuseNode_eq_ok.mp h
  rw [hop] at hk
  obtain ⟨-, -, hk⟩ := Result.bind_eq_ok.mp hk
  obtain rfl := Result.pure_eq_ok.mp hk
  have hwidth : p.columnCount id = a.width :=
    hp.arranged.columnCount_of_own hid (by rw [hop]; rfl)
  refine ⟨fun e he => ?_, rfl, hg.projected, ?_,
    (hp.arranged.columnNames_of_own hid (by rw [hop]; rfl)).symm⟩
  · rcases mem_append.mp he with he | he
    · exact hg.sees e (mem_append_left _ he)
    · rcases mem_append.mp he with he | he
      · exact hg.sees e (mem_append_right _ he)
      · obtain ⟨key, -, rfl⟩ := mem_map.mp he
        intro l hl
        rw [mem_singleton.mp hl]
        trivial
  · simp [hwidth, Aggregate.width]

/-- A later projection rearranges the targets and may add sources. -/
theorem fuseNode_later_project (hp : p.WellFormed) (hid : id ∈ p.order)
    (hop : p.op id = .project j) (hread : p.inputs id = [last])
    (hlast : (p.op last).isJoin = false) (hg : g.Computes p input last)
    (h : p.fuseNode g id = .ok f) : f.Computes p input id := by
  obtain ⟨k, hk, rfl⟩ := fuseNode_eq_ok.mp h
  have hwidth : p.columnCount id = j.exprs.length :=
    hp.arranged.columnCount_of_own hid (by rw [hop]; rfl)
  have hnames : j.fields = p.columnNames id :=
    (hp.arranged.columnNames_of_own hid (by rw [hop]; rfl)).symm
  rw [hop] at hk
  rcases fuseProject_cases hk with ⟨-, targets, sources, htargets, rfl⟩ | ⟨hunprojected, -⟩
  · rcases htargets with ⟨rfl, htargets⟩ | ⟨last', hlast', htargets⟩
    · have hlength := (Result.mapM_eq_ok.mp htargets).length_eq
      exact ⟨hg.sees, rfl, hg.projected, hlength.symm.trans hwidth.symm, hnames⟩
    · obtain rfl := Option.some.inj (hg.lastNode.symm.trans hlast')
      have hexprs : ∀ e ∈ j.exprs, ∀ l ∈ e.leaves,
          p.InSight input l ∨ ∃ i, l = .column ⟨last, i⟩ := fun e he l hl =>
        (hp.inSight hid (by rw [hop]; rfl) hread (by rw [hop]; exact he) l hl).of_not_join hlast
      obtain ⟨hlength, hsources⟩ := addTarget_mapM
        (fun s hs => hg.sees s (mem_append_right _ hs)) hexprs htargets
      refine ⟨fun e he => ?_, rfl, hg.projected, hlength.trans hwidth.symm, hnames⟩
      rcases mem_append.mp he with he | he
      · exact hg.sees e (mem_append_left _ he)
      · exact hsources e he
  · cases hg.projected.symm.trans hunprojected

/-- A node of a chain reads the one before it, and nothing else. -/
theorem OnlyReader.inputs_eq (h : p.OnlyReader last id) (hinput : p.inputs id = [input]) :
    p.inputs id = [last] := by
  have hread := h.1
  rw [hinput, mem_singleton] at hread
  rw [hinput, hread]

/-- The compound of a chain computes the columns of its last node from columns of the input of its
first node. -/
theorem Chained.taken {joinRoots ids : List NodeId} {stage : ChainStage}
    (h : p.Chained joinRoots ids stage) (hp : p.WellFormed)
    (hinput : ∀ first ∈ ids.head?, p.inputs first = [input])
    (hf : ids.foldlM p.fuseNode .start = .ok f) : f.Taken p input ids stage := by
  induction h generalizing f with
  | nil => exact ⟨rfl, (Except.ok.inj hf).symm⟩
  | @next ids id stage next hchain hid hlink hnext ih =>
      obtain ⟨g, hg, hstep⟩ := Result.foldlM_concat_eq_ok.mp hf
      have ih := ih (fun first hfirst =>
        hinput first (mem_head?_append_of_mem_head? hfirst)) hg
      rcases nextStage?_eq_some hnext with ⟨rfl, rfl, c, hop⟩ | ⟨rfl, rfl, j, hop⟩ |
        ⟨rfl, rfl, j, hop⟩ | ⟨rfl, rfl, a, hop⟩
      · obtain ⟨rfl, rfl⟩ := ih
        exact fuseNode_filter hp hid hop (hinput id rfl) hstep
      · obtain ⟨rfl, rfl⟩ := ih
        exact ⟨id, rfl, fuseNode_first_project hp hid hop (hinput id rfl) hstep⟩
      · obtain ⟨⟨x, c, rfl, hfilter, hnode⟩, hprojected, hsees⟩ := ih
        obtain ⟨i, hi, -⟩ := hp.input_of_arity_one hid (by rw [hop]; rfl)
        have hread := (hlink x rfl).inputs_eq hi
        exact ⟨id, by simp, fuseNode_filtered_project hp hid hop hread hfilter (hinput x rfl)
          hnode hprojected hsees hstep⟩
      · obtain ⟨last, -, hcomputes⟩ := ih
        exact ⟨id, by simp, fuseNode_aggregate hp hid hop hcomputes hstep⟩
  | @close ids id hchain hid hlink hend _ ih =>
      obtain ⟨g, hg, hstep⟩ := Result.foldlM_concat_eq_ok.mp hf
      obtain ⟨last, hlast, hcomputes⟩ := ih (fun first hfirst =>
        hinput first (mem_head?_append_of_mem_head? hfirst)) hg
      obtain ⟨j, hop⟩ := endsChain_eq_true hend
      obtain ⟨i, hi, -⟩ := hp.input_of_arity_one hid (by rw [hop]; rfl)
      have hread := (hlink last hlast).inputs_eq hi
      exact ⟨id, by simp, fuseNode_later_project hp hid hop hread
        (hchain.unary last (mem_of_getLast? hlast)).2 hcomputes hstep⟩

end Plan

end QueryPlan
