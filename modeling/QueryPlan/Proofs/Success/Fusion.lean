import QueryPlan.Proofs.Scope.ChainWalk
import QueryPlan.Proofs.Success.Lookups
/-!
# QueryPlan.Proofs.Success.Fusion

**Fusing chains refuses no readable plan.** Every node of a chain finds what it asks for in the
compound made so far (`Fusion.Stocked`): an aggregate finds as many sources as the columns that it
groups by, and the projection behind it targets for columns and sources for first keys. The walk
fuses chains of two to four nodes only (`ChainStage.most`).
-/

namespace QueryPlan

open List Plan

variable {p q : Plan} {id input last : NodeId}

namespace Fusion

variable {f g : Fusion} {targets : List CompoundTarget} {e : Expr} {es sources : List Expr}

/-! ### Sources for references -/

/-- An expression takes in sources, if there are sources for its references to a node that the
sources do not see. -/
theorem inlineSources_ok (hlast : last ∉ p.exposed input)
    (hsources : ∀ s ∈ sources, ∀ l ∈ s.leaves, p.InSight input l)
    (he : ∀ c ∈ e.columns, c.source = last → c.index < sources.length) :
    ∃ e', inlineSources last sources (sources.length + 1) e = .ok e' := by
  refine Expr.exists_mapLeavesM fun l hl => ?_
  cases l with
  | column c =>
      dsimp only
      split
      · next hsource =>
        have hlt := he c (Expr.mem_columns_iff.mpr hl) hsource
        rw [Result.bind_ok (Result.ofOption_eq_ok.mpr (getElem?_eq_getElem hlt))]
        split
        · exact ⟨_, rfl⟩
        · obtain ⟨depth, hdepth⟩ : ∃ depth, sources.length = depth + 1 :=
            Nat.exists_eq_succ_of_ne_zero (Nat.ne_of_gt (Nat.zero_lt_of_lt hlt))
          rw [hdepth]
          refine ⟨_, inlineSources_of_unseen (fun d hd hsource => ?_) depth⟩
          obtain ⟨hseen, -⟩ := column_of_inSight (hsources _ (getElem_mem hlt)) hd
          exact absurd (hsource ▸ hseen) hlast
      · exact ⟨_, rfl⟩
  | _ => exact ⟨_, rfl⟩

/-- A column of a node has a target. -/
theorem targetOf_ok {c : ColumnRef} (hlt : c.index < targets.length) :
    ∃ t, targetOf targets (.column c) = .ok t :=
  ⟨_, Result.ofOption_eq_ok.mpr (getElem?_eq_getElem hlt)⟩

theorem addTarget_ok (hlast : last ∉ p.exposed input)
    (hsources : ∀ s ∈ sources, ∀ l ∈ s.leaves, p.InSight input l)
    (hcolumn : ∀ c, e = .column c → c.index < targets.length)
    (hother : e.isColumn = false → ∀ c ∈ e.columns, c.source = last → c.index < sources.length) :
    ∃ t sources', addTarget targets last e sources = .ok (t, sources') := by
  unfold addTarget
  split
  · next hcol =>
    obtain ⟨c, rfl⟩ := Expr.exists_of_isColumn hcol
    obtain ⟨t, ht⟩ := targetOf_ok (hcolumn c rfl)
    exact ⟨t, sources, Result.bind_ok ht⟩
  · next hcol =>
    obtain ⟨source, hsource⟩ := inlineSources_ok hlast hsources (hother (by simpa using hcol))
    have hlift : (liftM (inlineSources last sources (sources.length + 1) e) :
        StateT (List Expr) Result Expr) sources = .ok (source, sources) := Result.bind_ok hsource
    exact ⟨.source sources.length, sources ++ [source], Result.bind_ok hlift⟩

/-- The expressions of a projection give targets, and sources besides, if its columns have targets and
its other expressions find sources. -/
theorem addTarget_mapM_ok (hlast : last ∉ p.exposed input)
    (hsources : ∀ s ∈ sources, ∀ l ∈ s.leaves, p.InSight input l)
    (hes : ∀ e ∈ es, ∀ l ∈ e.leaves, p.InSight input l ∨ ∃ i, l = .column ⟨last, i⟩)
    (hcolumns : ∀ e ∈ es, ∀ c, e = .column c → c.index < targets.length)
    (hothers : ∀ e ∈ es, e.isColumn = false →
      ∀ c ∈ e.columns, c.source = last → c.index < sources.length) :
    ∃ r, (es.mapM (addTarget targets last)).run sources = .ok r := by
  induction es generalizing sources with
  | nil => exact ⟨_, rfl⟩
  | cons e es ih =>
      obtain ⟨t, middle, ht⟩ := addTarget_ok hlast hsources (hcolumns e mem_cons_self)
        (hothers e mem_cons_self)
      obtain ⟨hmiddle, hlength⟩ : (∀ s ∈ middle, ∀ l ∈ s.leaves, p.InSight input l) ∧
          sources.length ≤ middle.length := by
        rcases addTarget_eq_ok ht with ⟨rfl, -⟩ | ⟨source, hinline, rfl, -⟩
        · exact ⟨hsources, Nat.le_refl _⟩
        · refine ⟨fun s hs => ?_, by simp⟩
          rcases mem_append.mp hs with hs | hs
          · exact hsources s hs
          · rw [mem_singleton.mp hs]
            exact leaves_inlineSources hsources (hes e mem_cons_self) hinline
      obtain ⟨r, hr⟩ := ih hmiddle (fun e he => hes e (mem_cons_of_mem _ he))
        (fun e he => hcolumns e (mem_cons_of_mem _ he)) fun e he hcol c hc hsource =>
          Nat.lt_of_lt_of_le (hothers e (mem_cons_of_mem _ he) hcol c hc hsource) hlength
      rw [mapM_cons]
      exact ⟨_, (Result.bind_ok ht).trans (Result.bind_ok hr)⟩

/-- There are sources for what the next node asks for: as many as the last one has columns, or as
many as it groups by. -/
def Stocked (p : Plan) (last : NodeId) (f : Fusion) : ChainStage → Prop
  | .projected => f.compound.sources.length = p.columnCount last
  | .grouped => ∀ a, p.op last = .aggregate a → a.groupCount ≤ f.compound.sources.length
  | _ => True

end Fusion

/-! ### One node -/

namespace Plan

open Fusion

variable {f g : Fusion} {j : Project} {ids joinRoots : List NodeId} {stage : ChainStage}

theorem fuseNode_first_project_ok (hop : p.op id = .project j) (hinput : p.inputs id = [input]) :
    ∃ f, p.fuseNode .start id = .ok f ∧ f.compound.sources.length = j.exprs.length := by
  have hproject : p.fuseProject .start id j = .ok (addSources { Fusion.start with
      compound := { Fusion.start.compound with fields := j.fields, target := j.target } } j.exprs) :=
    Result.bind_ok (Node.singleInput_eq_ok.mpr hinput)
  exact ⟨_, fuseNode_eq_ok.mpr ⟨_, by rw [hop]; exact hproject, rfl⟩, rfl⟩

/-- Expressions over a filter can be read through it. -/
theorem readThroughFilter_ok {filter : NodeId} {exprs : List Expr} {l : List NodeId}
    (hp : p.Arranged l) (hlive : input ∈ l) (hinput : p.inputs filter = [input])
    (hexprs : ∀ e ∈ exprs, ∀ c ∈ e.columns, c.source = filter → c.index < p.columnCount input) :
    ∃ exprs', p.readThroughFilter filter exprs = .ok exprs' ∧ exprs'.length = exprs.length := by
  have hcount : (p.columnsOf (p.exposed input)).length = p.columnCount input := by
    rw [length_columnsOf, hp.columnCount_eq_sum_exposed hlive]
  have hrun : ∃ exprs', p.readThroughFilter filter exprs = .ok exprs' := by
    rw [readThroughFilter, Result.bind_ok (Node.singleInput_eq_ok.mpr hinput),
      Result.bind_ok (hp.output_eq hlive)]
    refine Result.exists_mapM fun e he => Expr.exists_mapLeavesM fun l hl => ?_
    cases l with
    | column c =>
        dsimp only
        split
        · next hsource =>
          have hlt := hexprs e he c (Expr.mem_columns_iff.mpr hl) hsource
          exact ⟨_, Result.bind_ok (Result.ofOption_eq_ok.mpr (getElem?_eq_getElem (hcount ▸ hlt)))⟩
        · exact ⟨_, rfl⟩
    | _ => exact ⟨_, rfl⟩
  obtain ⟨exprs', h⟩ := hrun
  obtain ⟨i, -, hmap⟩ := Result.bind_eq_ok.mp h
  obtain ⟨columns, -, hmap⟩ := Result.bind_eq_ok.mp hmap
  exact ⟨exprs', h, (Result.mapM_eq_ok.mp hmap).length_eq.symm⟩

theorem fuseNode_filtered_project_ok {c : Filter} {filter : NodeId} (hp : p.WellFormed)
    (hid : id ∈ p.order) (hop : p.op id = .project j) (hread : p.inputs id = [filter])
    (hfilter : p.op filter = .filter c) (hinput : p.inputs filter = [input])
    (hnode : g.filterNode = some filter) (hprojected : g.projected = false) :
    ∃ f, p.fuseNode g id = .ok f ∧ f.compound.sources.length = j.exprs.length := by
  have hlive : filter ∈ p.order := hp.arranged.mem_of_input hid (hread ▸ mem_singleton_self filter)
  have hbelow : input ∈ p.order := hp.arranged.mem_of_input hlive (hinput ▸ mem_singleton_self _)
  have hcount := hp.arranged.columnCount_of_first hlive (by rw [hfilter]; rfl) hinput
  have hreads : ∀ e ∈ j.exprs, ∀ c ∈ e.columns, c.source = filter →
      c.index < p.columnCount input := by
    intro e he c hc hsource
    rw [← hcount, ← hsource]
    exact (hp.reads_of_mem hid (hop ▸ Operator.mem_columns.mpr ⟨e, he, hc⟩)).2
  obtain ⟨exprs, hexprs, hlength⟩ := readThroughFilter_ok hp.arranged hbelow hinput hreads
  have hproject : p.fuseProject g id j = .ok (addSources { g with
      compound := { g.compound with fields := j.fields, target := j.target } } exprs) := by
    unfold fuseProject
    dsimp only
    rw [if_neg (by simp [hprojected]), Result.bind_ok (Node.singleInput_eq_ok.mpr hread),
      if_pos hnode, Result.bind_ok hexprs]
    rfl
  exact ⟨_, fuseNode_eq_ok.mpr ⟨_, by rw [hop]; exact hproject, rfl⟩, hlength⟩

theorem fuseNode_aggregate_ok {a : Aggregate} (hop : p.op id = .aggregate a)
    (hcount : a.groupCount ≤ g.compound.sources.length) :
    ∃ f, p.fuseNode g id = .ok f ∧ a.groupCount ≤ f.compound.sources.length := by
  have hgroups : ∃ f, g.addAggregate a = .ok f :=
    ⟨_, Result.bind_ok (a := ()) (Result.ensure_eq_ok.mpr (decide_eq_true hcount))⟩
  obtain ⟨f, hf⟩ := hgroups
  refine ⟨_, fuseNode_eq_ok.mpr ⟨f, by rw [hop]; exact hf, rfl⟩, ?_⟩
  obtain ⟨-, -, hf⟩ := Result.bind_eq_ok.mp hf
  obtain rfl := Result.pure_eq_ok.mp hf
  simp

/-- An expression that passes a key through refers to the first key of an aggregate at most. -/
theorem isPassThrough_eq_true {e : Expr} (h : p.isPassThrough e = true) (hcol : e.isColumn = false)
    {c : ColumnRef} (hc : c ∈ e.columns) :
    ∃ a, p.op c.source = .aggregate a ∧ c.index = 0 ∧ 0 < a.groupCount := by
  rw [isPassThrough, hcol, Bool.false_or, all_eq_true] at h
  have hkey := h _ (Expr.mem_columns_iff.mp hc)
  dsimp only at hkey
  unfold isFirstKey at hkey
  split at hkey
  · next a hop =>
    rw [Bool.and_eq_true, beq_iff_eq, decide_eq_true_eq] at hkey
    exact ⟨a, hop, hkey⟩
  · cases hkey

/-- No node sees one that stands behind it. -/
theorem Arranged.not_mem_exposed (h : p.Arranged p.order) (hpair : [input, last] <+ p.order) :
    last ∉ p.exposed input := by
  obtain ⟨pre, post, horder⟩ := append_of_mem (mem_right hpair)
  have hpre : p.Arranged pre := by
    have h := h
    rw [horder] at h
    exact h.left
  have hinput : input ∈ pre := mem_left_of_pair (horder ▸ hpair) (horder ▸ h.nodup)
  intro hmem
  have hnodup : (pre ++ last :: post).Nodup := horder ▸ h.nodup
  exact (nodup_append.mp hnodup).2.2 last (hpre.exposed_subset hinput hmem) last mem_cons_self rfl

theorem fuseNode_later_project_ok (hp : p.WellFormed) (hid : id ∈ p.order)
    (hop : p.op id = .project j) (hread : p.inputs id = [last])
    (hlast : (p.op last).isJoin = false) (hbelow : [input, last] <+ p.order)
    (hend : p.endsChain id = true) (hg : g.Computes p input last)
    (hstocked : g.Stocked p last .grouped) : ∃ f, p.fuseNode g id = .ok f := by
  have hreads : ∀ e ∈ j.exprs, ∀ c ∈ e.columns,
      c.source = last ∧ c.index < g.compound.targets.length := by
    intro e he c hc
    have hmem : c ∈ (p.op id).columns := hop ▸ Operator.mem_columns.mpr ⟨e, he, hc⟩
    obtain ⟨hsource, hlt⟩ := hp.reads_of_mem hid hmem
    rw [reads_of_input (by rw [hop]; rfl) hread,
      exposed_of_not_join hlast, mem_singleton] at hsource
    exact ⟨hsource, by rwa [hg.width, ← hsource]⟩
  have hpass : ∀ e ∈ j.exprs, p.isPassThrough e = true := by
    unfold endsChain at hend
    rw [hop] at hend
    exact all_eq_true.mp hend
  have hproject : ∃ f, p.fuseProject g id j = .ok f := by
    unfold fuseProject addTargets
    dsimp only
    rw [if_pos hg.projected]
    split
    · next hsimple =>
      refine Result.exists_bind (Result.exists_mapM fun e he => ?_) fun _ _ => ⟨_, rfl⟩
      obtain ⟨c, rfl⟩ := Expr.exists_of_isColumn (all_eq_true.mp hsimple e he)
      exact targetOf_ok (hreads _ he c (by simp [Expr.columns, Expr.leaves, Leaf.column?])).2
    · rw [hg.lastNode]
      refine Result.exists_bind ⟨last, rfl⟩ fun last' hlast' => ?_
      obtain rfl := Except.ok.inj hlast'
      refine Result.exists_bind (addTarget_mapM_ok (hp.arranged.not_mem_exposed hbelow)
        (fun s hs => hg.sees s (mem_append_right _ hs)) (fun e he l hl => ?_) (fun e he c hc => ?_)
        fun e he hcol c hc hsource => ?_) fun _ _ => ⟨_, rfl⟩
      · refine (hp.inSight hid (by rw [hop]; rfl) hread ?_ l hl).of_not_join hlast
        rw [hop]
        exact he
      · refine (hreads e he c ?_).2
        rw [hc]
        exact mem_singleton_self c
      · obtain ⟨a, hopLast, hfirst, hcount⟩ := isPassThrough_eq_true (hpass e he) hcol hc
        rw [hsource] at hopLast
        rw [hfirst]
        exact Nat.lt_of_lt_of_le hcount (hstocked a hopLast)
  obtain ⟨f, hf⟩ := hproject
  exact ⟨_, fuseNode_eq_ok.mpr ⟨f, by rw [hop]; exact hf, rfl⟩⟩

/-! ### A chain -/

/-- An aggregate groups by no more columns than it reads. -/
theorem Readable.groupCount_le (h : p.Readable) (hid : id ∈ p.order) {a : Aggregate}
    (hop : p.op id = .aggregate a) (hinput : input ∈ p.inputs id) :
    a.groupCount ≤ p.columnCount input := by
  have hwithin := (Operator.lookups_lt_iff.mp (h.lookups id hid input hinput)).1
  rw [hop] at hwithin
  exact hwithin.1

/-- The next node of a chain finds what it asks for. -/
theorem fuseNode_next_ok {next : ChainStage} (hp : p.Readable) (hid : id ∈ p.order)
    (hlink : ∀ last ∈ ids.getLast?, p.OnlyReader last id)
    (hinput : ∀ first ∈ (ids ++ [id]).head?, p.inputs first = [input])
    (hnext : p.nextStage? joinRoots stage id = some next) (htaken : g.Taken p input ids stage)
    (hstocked : ∀ last ∈ ids.getLast?, g.Stocked p last stage) :
    ∃ f, p.fuseNode g id = .ok f ∧ f.Stocked p id next := by
  have hcount : ∀ {j : Project}, p.op id = .project j → p.columnCount id = j.exprs.length :=
    fun hop => hp.arranged.columnCount_of_own hid (by rw [hop]; rfl)
  rcases nextStage?_eq_some hnext with ⟨rfl, rfl, c, hop⟩ | ⟨rfl, rfl, j, hop⟩ |
    ⟨rfl, rfl, j, hop⟩ | ⟨rfl, rfl, a, hop⟩
  · obtain ⟨rfl, rfl⟩ := htaken
    exact ⟨_, fuseNode_eq_ok.mpr ⟨_, by rw [hop]; rfl, rfl⟩, trivial⟩
  · obtain ⟨rfl, rfl⟩ := htaken
    obtain ⟨f, hf, hlength⟩ := fuseNode_first_project_ok hop (hinput id rfl)
    exact ⟨f, hf, hlength.trans (hcount hop).symm⟩
  · obtain ⟨⟨x, c, rfl, hfilter, hnode⟩, hprojected, -⟩ := htaken
    obtain ⟨i, hi, -⟩ := hp.input_of_arity_one hid (by rw [hop]; rfl)
    obtain ⟨f, hf, hlength⟩ := fuseNode_filtered_project_ok hp.toWellFormed hid hop
      ((hlink x rfl).inputs_eq hi) hfilter (hinput x rfl) hnode hprojected
    exact ⟨f, hf, hlength.trans (hcount hop).symm⟩
  · obtain ⟨last, hlast, -⟩ := htaken
    -- The first projection left a source for each of its columns, so there is one for each key.
    have hsources : g.compound.sources.length = p.columnCount last := hstocked last hlast
    obtain ⟨f, hf, hkeys⟩ := fuseNode_aggregate_ok hop
      (hsources ▸ hp.groupCount_le hid hop (hlink last hlast).1)
    refine ⟨f, hf, fun b hb => ?_⟩
    cases hop.symm.trans hb
    exact hkeys

/-- Every chain has a compound, with sources for what the next node asks for. -/
theorem Chained.fuse_ok (h : p.Chained joinRoots ids stage) (hp : p.Readable)
    (hinput : ∀ first ∈ ids.head?, p.inputs first = [input]) :
    ∃ f, ids.foldlM p.fuseNode .start = .ok f ∧ ∀ last ∈ ids.getLast?, f.Stocked p last stage := by
  induction h with
  | nil => exact ⟨.start, rfl, nofun⟩
  | @next ids id stage next hchain hid hlink hnext ih =>
      have hfront : ∀ first ∈ ids.head?, p.inputs first = [input] := fun first hfirst =>
        hinput first (mem_head?_append_of_mem_head? hfirst)
      obtain ⟨g, hg, hstocked⟩ := ih hfront
      have htaken := hchain.taken hp.toWellFormed hfront hg
      obtain ⟨f, hf, hfStocked⟩ := fuseNode_next_ok hp hid hlink hinput hnext htaken hstocked
      refine ⟨f, Result.foldlM_concat_eq_ok.mpr ⟨g, hg, hf⟩, fun last hlast => ?_⟩
      rw [getLast?_concat] at hlast
      exact Option.some.inj hlast ▸ hfStocked
  | @close ids id hchain hid hlink hend _ ih =>
      have hfront : ∀ first ∈ ids.head?, p.inputs first = [input] := fun first hfirst =>
        hinput first (mem_head?_append_of_mem_head? hfirst)
      obtain ⟨g, hg, hstocked⟩ := ih hfront
      obtain ⟨last, hlast, hcomputes⟩ := hchain.taken hp.toWellFormed hfront hg
      have hlastMem := mem_of_getLast? hlast
      obtain ⟨first, hfirst⟩ : ∃ first, ids.head? = some first :=
        ⟨_, head?_eq_some_head (ne_nil_of_mem hlastMem)⟩
      have hbefore := hchain.input_before hp.arranged.toOrdered hfirst
        (hfront first hfirst ▸ mem_singleton_self input) last hlastMem
      obtain ⟨j, hop⟩ := endsChain_eq_true hend
      obtain ⟨i, hi, -⟩ := hp.input_of_arity_one hid (by rw [hop]; rfl)
      obtain ⟨f, hf⟩ := fuseNode_later_project_ok hp.toWellFormed hid hop
        ((hlink last hlast).inputs_eq hi) (hchain.unary last hlastMem).2 hbefore hend hcomputes
        (hstocked last hlast)
      -- Behind the last projection nothing is grouped, so nothing is asked for.
      refine ⟨f, Result.foldlM_concat_eq_ok.mpr ⟨g, hg, hf⟩, fun last' hlast' a ha => ?_⟩
      rw [getLast?_concat] at hlast'
      cases hlast'
      cases hop.symm.trans ha

/-- What reads a node finds its columns in the next one, if this is as wide, whatever else is
live. -/
theorem WellFormed.redirection_to_next_ok {old new : NodeId} {pre post live : List NodeId}
    (h : p.WellFormed) (horder : p.order = pre ++ old :: new :: post)
    (hcount : p.columnCount new = p.columnCount old) (hlive : live <+ p.order) :
    ∃ q, ({ p with order := live } : Plan).replaceInputEverywhere old new none = .ok q := by
  have hshape : SameShape p { p with order := live } := .of_arena_eq rfl
  obtain ⟨q, hq, -⟩ := replaceInputEverywhere_ok (p := { p with order := live })
    (h.nodup.sublist hlive) (fun n hn => h.inArena (hlive.subset hn))
    ((horder ▸ h.arranged).of_sameShape hshape).steady_to_next fun n hn _ c hc hsource => by
      rw [hshape.columnCount_eq, hcount, ← hsource]
      exact (h.reads_of_mem (hlive.subset hn) hc).2
  exact ⟨q, hq⟩

/-- A chain of two nodes or more gives way to its compound. -/
theorem Readable.replaceChain_ok (h : p.Readable) (hchain : p.Chained joinRoots ids stage)
    (hlength : 2 ≤ ids.length) {first : NodeId} (hfirst : ids.head? = some first)
    (hlast : ids.getLast? = some last) (next : Nat) :
    ∃ q next', p.replaceChain ids first last next = .ok (q, next') := by
  have hlastMem := mem_of_getLast? hlast
  have hlastLive := hchain.subset hlastMem
  have hfirstMem := mem_of_head? hfirst
  obtain ⟨input, hinput, -⟩ := h.input_of_arity_one (hchain.subset hfirstMem)
    (hchain.unary first hfirstMem).1
  obtain ⟨f, hf, -⟩ := hchain.fuse_ok h fun x hx => by
    cases hfirst.symm.trans hx
    exact hinput
  have hcompound : p.fuseChain ids = .ok f.compound := Result.bind_ok hf
  obtain ⟨r, hr⟩ := replaceInOrder_ok
    (p := p.alloc (.make next [input] (.compound f.compound))) hlastLive p.nextId
  obtain ⟨pre, post, horder, hrEq⟩ := replaceInOrder_eq_ok hr
  have hdoubled := h.doubled hchain hlength hfirst hinput hlast hf horder next
  have hsub : p.withoutChain ids pre post <+ pre ++ last :: p.nextId :: post :=
    filter_sublist.trans ((sublist_cons_self last (p.nextId :: post)).append_left pre)
  have hloop : ∃ q, ({ p.alloc (.make next [input] (.compound f.compound)) with
      order := p.withoutChain ids pre post } : Plan).replaceInputEverywhere
        last p.nextId none = .ok q :=
    hdoubled.wellFormed.redirection_to_next_ok hdoubled.order_eq hdoubled.count hsub
  obtain ⟨q, hq⟩ := hloop
  refine ⟨q, next + 1, ?_⟩
  unfold replaceChain
  rw [Fresh.bind_ok (Fresh.lift_ok hcompound),
    Fresh.bind_ok (Fresh.lift_ok (Node.singleInput_eq_ok.mpr hinput)),
    Fresh.bind_ok (Fresh.freshId_eq_ok.mpr ⟨rfl, rfl⟩), Fresh.bind_ok (Fresh.lift_ok hr),
    foldl_remove, hrEq]
  exact Fresh.lift_ok hq

/-- A compound right behind a node looks up nothing. -/
theorem Doubled.lookupsInRange {r : Plan} {pre post : List NodeId}
    (f : p.Doubled r input last pre post) (h : p.Readable) : r.LookupsInRange := by
  have hcount : ∀ x ∈ p.order, r.columnCount x = p.columnCount x :=
    h.arranged.columnCount_congr f.size_le (fun x hx => by rw [op_congr (f.node_eq x hx)])
      fun x hx => inputs_congr (f.node_eq x hx)
  refine h.lookups.of_lookups fun x hx i hi k hk => ?_
  rw [f.order_eq, append_cons, mem_middle_iff, append_assoc, singleton_append,
    ← f.order_before] at hx
  rcases hx with rfl | hx
  · obtain ⟨c, hop⟩ := f.op_new
    rw [hop] at hk
    exact absurd hk not_mem_nil
  · rw [inputs_congr (f.node_eq x hx)] at hi
    rw [op_congr (f.node_eq x hx)] at hk
    exact ⟨x, hx, i, hi, hk, Nat.le_of_eq (hcount i (h.arranged.mem_of_input hx hi)).symm⟩

theorem Readable.replaceChain {next next' : Nat} {first : NodeId} (h : p.Readable)
    (hchain : p.Chained joinRoots ids stage) (hlength : 2 ≤ ids.length)
    (hfirst : ids.head? = some first) (hlast : ids.getLast? = some last)
    (hq : p.replaceChain ids first last next = .ok (q, next')) : q.Readable := by
  obtain ⟨r, input, pre, post, -, hr, hqOrder, hstays, hwf, hred⟩ :=
    h.redirection_of_replaceChain hchain hlength hfirst hlast hq
  have hcount := hred.columnCount_of_eq hr.wellFormed.arranged hwf.arranged hr.count
  have hnew : p.nextId ∈ r.order := by rw [hr.order_eq]; simp
  have hrange := hred.toRewired.lookupsInRange hr.wellFormed (hr.lookupsInRange h) hcount
    ((hcount _ hnew).trans hr.count) (by rintro i hi k ⟨⟩; exact hi)
  refine ⟨h.toWellFormed.replaceChain hchain hlength hfirst hlast hq, ?_⟩
  refine hrange.of_sameShape (.of_arena_eq rfl) (fun x hx => ?_) fun _ _ => rfl
  rw [hqOrder, hstays] at hx
  exact (mem_filter.mp hx).1

end Plan

/-! ### The walk -/

/-- How many nodes a chain has at least when it comes to a stage. -/
def ChainStage.least : ChainStage → Nat
  | .start => 0
  | .filtered | .projected => 1
  | .grouped => 2

/-- How many nodes a chain has at most when it comes to a stage. -/
def ChainStage.most : ChainStage → Nat
  | .start => 0
  | .filtered => 1
  | .projected => 2
  | .grouped => 3

namespace Plan

variable {ids joinRoots : List NodeId} {stage next : ChainStage}

theorem nextStage?_bounds (h : p.nextStage? joinRoots stage id = some next) :
    next.least ≤ stage.least + 1 ∧ stage.most + 1 ≤ next.most := by
  rcases nextStage?_eq_some h with ⟨rfl, rfl, -⟩ | ⟨rfl, rfl, -⟩ | ⟨rfl, rfl, -⟩ | ⟨rfl, rfl, -⟩ <;>
    decide

theorem Chained.least_le (h : p.Chained joinRoots ids stage) : stage.least ≤ ids.length := by
  induction h with
  | nil => exact Nat.le_refl _
  | next _ _ _ hnext ih =>
      rw [length_append, length_singleton]
      exact Nat.le_trans (nextStage?_bounds hnext).1 (Nat.succ_le_succ ih)
  | close _ _ _ _ _ ih =>
      rw [length_append]
      exact Nat.le_add_right_of_le ih

end Plan

namespace ChainWalk

variable {w w' : ChainWalk} {ids joinRoots : List NodeId}

theorem kept_readable : Kept joinRoots Readable :=
  fun _ _ _ _ _ _ _ _ hchain hlength hfirst hlast hq hp =>
    hp.replaceChain hchain hlength hfirst hlast hq

/-- A steady walk over readable plans, whose chain may still go on. -/
structure Open (joinRoots : List NodeId) (w : ChainWalk) : Prop
    extends Steady Readable joinRoots w where
  most : w.chain.length ≤ w.stage.most

/-- A chain of two to four nodes is fused. -/
theorem Sound.fuse_ok (h : w.Sound Readable) (hholds : w.Holds joinRoots ids)
    (hleast : 2 ≤ w.chain.length) (hmost : w.chain.length ≤ 4) (next : Nat) :
    ∃ w' next', w.fuse next = .ok (w', next') := by
  obtain ⟨first, last, place, hfirst, hlast, -, heq⟩ := hholds.fuse_eq hleast hmost
  obtain ⟨q, next', hq⟩ := h.known.replaceChain_ok hholds.chained (hholds.length_eq ▸ hleast)
    hfirst hlast next
  exact ⟨_, next', heq.trans (Fresh.bind_ok hq)⟩

theorem Open.visit (h : w.Open joinRoots) : w.visit.Open joinRoots := by
  refine ⟨h.toSteady.visit, ?_⟩
  obtain ⟨visited, hvisit⟩ := w.visit_eq
  rw [hvisit]
  exact h.most

/-- A chain that a step fuses has two to four nodes. -/
theorem Open.length_of_closes (h : w.Open joinRoots) (hcloses : w.Closes w') :
    2 ≤ w'.chain.length ∧ w'.chain.length ≤ 4 := by
  obtain ⟨ids, hholds, -⟩ := h.chained
  have hleast : w.stage.least ≤ w.chain.length := hholds.length_eq ▸ hholds.chained.least_le
  have hmost := h.most
  cases hcloses with
  | whole hstage =>
      rcases hstage with hstage | ⟨hstage, hlength⟩ <;> rw [hstage] at hleast hmost
      · exact ⟨hleast, Nat.le_succ_of_le hmost⟩
      · exact ⟨hlength, Nat.le_trans hmost (by decide)⟩
  | @ended place id hstage =>
      rw [hstage] at hleast hmost
      change 2 ≤ (w.chain ++ [place]).length ∧ (w.chain ++ [place]).length ≤ 4
      rw [length_append]
      exact ⟨Nat.le_add_right_of_le hleast, Nat.succ_le_succ hmost⟩

/-- A step of the walk is not refused. -/
theorem Open.step_ok (h : w.Open joinRoots) (next : Nat) :
    ∃ w' next', w.step joinRoots next = .ok (w', next') ∧ w'.Open joinRoots := by
  suffices hstep : ∃ w' next', w.step joinRoots next = .ok (w', next') ∧
      w'.chain.length ≤ w'.stage.most by
    obtain ⟨w', next', hstep, hmost⟩ := hstep
    exact ⟨w', next', hstep, h.toSteady.step kept_readable hstep, hmost⟩
  have hv := h.visit
  rcases w.step_cases joinRoots with
    ⟨found, hnext, heq⟩ | ⟨-, ⟨-, heq⟩ | ⟨-, heq⟩ | ⟨u, hcloses, heq⟩⟩ <;> rw [heq]
  · refine ⟨_, next, rfl, ?_⟩
    obtain ⟨id, -, hreached⟩ := advance?_eq_some hnext
    change (w.visit.chain ++ [found.1]).length ≤ found.2.most
    rw [length_append]
    exact Nat.le_trans (Nat.succ_le_succ hv.most) (nextStage?_bounds hreached).2
  · exact ⟨_, next, rfl, hv.most⟩
  · exact ⟨_, next, rfl, Nat.zero_le _⟩
  · obtain ⟨hsound, ids, hholds⟩ := hv.toSteady.closes hcloses
    obtain ⟨hleast, hmost⟩ := hv.length_of_closes hcloses
    obtain ⟨fused, n, hfused⟩ := hsound.fuse_ok hholds hleast hmost next
    exact ⟨_, n, Fresh.bind_ok hfused, Nat.zero_le _⟩

/-- The walk over a readable plan may go on from its beginning. -/
theorem Open.ofPlan (h : p.Readable) (joinRoots : List NodeId) :
    (ChainWalk.ofPlan p).Open joinRoots :=
  { ChainWalk.Sound.ofPlan h.arranged.toOrdered h with
    chained := ⟨[], ⟨rfl, .nil⟩, nofun⟩
    most := Nat.le_refl _ }

theorem Open.run_ok (h : w.Open joinRoots) (fuel next : Nat) :
    ∃ w' next', w.run joinRoots fuel next = .ok (w', next') ∧ w'.Open joinRoots := by
  induction fuel generalizing w next with
  | zero => exact ⟨w, next, rfl, h⟩
  | succ fuel ih =>
      rw [run]
      split
      · exact ⟨w, next, rfl, h⟩
      · obtain ⟨v, n, hstep, hv⟩ := h.step_ok next
        rw [Fresh.bind_ok hstep]
        exact ih hv n

/-- The chain that is open at the end is fused, or left as it is. -/
theorem Open.finish_ok (h : w.Open joinRoots) (next : Nat) :
    ∃ w' next', w.finish next = .ok (w', next') := by
  obtain ⟨ids, hholds, -⟩ := h.chained
  have hmost := h.most
  unfold finish
  cases hstage : w.stage with
  | start | filtered => exact ⟨w, next, rfl⟩
  | projected | grouped =>
      rw [hstage] at hmost
      dsimp only
      split
      · next hleast =>
        exact h.toSound.fuse_ok hholds hleast (Nat.le_trans hmost (by decide)) next
      · exact ⟨w, next, rfl⟩

end ChainWalk

namespace Plan

theorem fuseChains_ok (h : p.Readable) (joinRoots : List NodeId) (next : Nat) :
    ∃ q next', p.fuseChains joinRoots next = .ok (q, next') ∧ q.Readable := by
  obtain ⟨w, n, hrun, hw⟩ :=
    (ChainWalk.Open.ofPlan h joinRoots).run_ok (ChainWalk.stepBound p.order.length) next
  obtain ⟨v, next', hfinish⟩ := hw.finish_ok n
  have hfuse : p.fuseChains joinRoots next = .ok (v.plan, next') :=
    (Fresh.bind_ok hrun).trans (Fresh.bind_ok hfinish)
  exact ⟨v.plan, next', hfuse,
    (fuseChains_induct ChainWalk.kept_readable h.arranged.toOrdered h hfuse).2⟩

end Plan

end QueryPlan
