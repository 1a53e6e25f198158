import QueryPlan.Proofs.ChainFusion.Exactness
import QueryPlan.Proofs.ChainFusion.Sources
import QueryPlan.Proofs.Shape.Names
import QueryPlan.Proofs.Success.Fusion
/-!
# QueryPlan.Proofs.ChainFusion.Compounds

**Every compound stands for a chain.** It has the columns of the last node of its chain, and its
lists fit together (`Plan.StandsFor`).

A chain is fused in a plan in which other chains may have been fused before. Nodes that stay are
only renamed by that (`FusedChains.node_eq`) and show the same columns as before, under other
handles (`FusedChains.columnsOf_exposed`). So what the compound is made of are the expressions of
the chain in the plan from the start, renamed, and later fusions rename them further
(`Plan.FusedCompounds`).
-/

namespace QueryPlan

open List

namespace Plan

variable {p q r : Plan} {chains : List (List NodeId)} {fused : NodeId → Option NodeId}
  {ids joinRoots : List NodeId} {first last k n x : NodeId} {stage : ChainStage}
  {next next' : Nat}

/-! ### What nodes show when chains are fused -/

namespace FusedChains

variable (hs : FusedChains joinRoots p r chains fused) (hp : p.Arranged p.order)
include hs hp

/-- What stays, and what the first node of a chain reads, is not in front of the last node of a
chain. -/
theorem inputs_stay (hn : n ∈ p.order)
    (hstays : n ∉ chains.flatten ∨ ∃ ids ∈ chains, ids.head? = some n) {i : NodeId}
    (hi : i ∈ p.inputs n) : i ∉ chains.flatMap dropLast := by
  intro hmem
  obtain ⟨ids, hids, hfront⟩ := mem_flatMap.mp hmem
  obtain ⟨-, stage, hchain⟩ := hs.chained ids hids
  have hreader : n ∈ ids := hchain.reader_mem hfront hn hi
  rcases hstays with huntaken | ⟨ids', hids', hfirst⟩
  · exact huntaken (mem_flatten.mpr ⟨ids, hids, hreader⟩)
  · obtain rfl := hs.eq_of_mem hids hids' hreader (mem_of_head? hfirst)
    exact ne_of_pair hp.nodup
      (hchain.input_before hp.toOrdered hfirst hi i (dropLast_subset _ hfront)) rfl

/-- A node that stays, or the compound in its place, exposes what it exposed. -/
theorem exposed_topOf (hx : x ∈ p.order) (hstays : x ∉ chains.flatMap dropLast) :
    r.exposed (topOf fused x) = (p.exposed x).map (topOf fused) ∧
      ∀ i ∈ p.exposed x, i ∈ p.order ∧ i ∉ chains.flatMap dropLast := by
  cases hfused : fused x with
  | some k =>
      obtain ⟨-, -, c, hop⟩ := hs.fused_new x k hfused
      obtain ⟨ids, hids, hlast⟩ := (hs.fused_isSome_iff x).mp (by rw [hfused]; rfl)
      obtain ⟨-, stage, hchain⟩ := hs.chained ids hids
      rw [exposed_of_not_join (hchain.unary x (mem_of_getLast? hlast)).2, topOf, hfused,
        Option.getD_some, exposed_of_not_join (by rw [hop]; rfl)]
      refine ⟨by simp [topOf, hfused], fun i hi => ?_⟩
      rw [mem_singleton.mp hi]
      exact ⟨hx, hstays⟩
  | none =>
      have huntaken := hs.not_mem_flatten hstays hfused
      have hjoin : (r.op x).isJoin = (p.op x).isJoin := by
        rw [Plan.op, hs.node_eq x hx huntaken, Node.op_renamed, Operator.isJoin_mapExprs]
        rfl
      rw [hs.topOf_eq_self huntaken]
      cases hop : (p.op x).isJoin with
      | false =>
          rw [exposed_of_not_join hop, exposed_of_not_join (hjoin.trans hop)]
          refine ⟨by simp [hs.topOf_eq_self huntaken], fun i hi => ?_⟩
          rw [mem_singleton.mp hi]
          exact ⟨hx, hstays⟩
      | true =>
          rw [exposed_of_join hop, exposed_of_join (hjoin.trans hop), inputs,
            hs.node_eq x hx huntaken, Node.inputs_renamed]
          exact ⟨rfl, fun i hi =>
            ⟨hp.mem_of_input hx hi, hs.inputs_stay hp hx (.inl huntaken) hi⟩⟩

variable (hr : r.Arranged r.order)
  (hwidth : ∀ last k, fused last = some k → r.columnCount k = p.columnCount last)
include hr hwidth

/-- A node that stays, or the compound in its place, is as wide as it was. -/
theorem columnCount_eq : ∀ x ∈ p.order, x ∉ chains.flatMap dropLast →
    r.columnCount (topOf fused x) = p.columnCount x := by
  refine hp.induction fun x hx ih hstays => ?_
  cases hfused : fused x with
  | some k =>
      rw [topOf, hfused]
      exact hwidth x k hfused
  | none =>
      have huntaken := hs.not_mem_flatten hstays hfused
      have hlive : x ∈ r.order := hs.mem_order.mpr (.inl ⟨hx, huntaken⟩)
      have hinputs : ∀ i ∈ p.inputs x, r.columnCount (topOf fused i) = p.columnCount i :=
        fun i hi => ih i hi (hs.inputs_stay hp hx (.inl huntaken) hi)
      have hlayout : (r.op x).layout = (p.op x).layout := by
        rw [Plan.op, hs.node_eq x hx huntaken, Node.op_renamed, Operator.layout_mapExprs]
        rfl
      rw [hs.topOf_eq_self huntaken, hr.columnCount_eq hlive, hp.columnCount_eq hx, hlayout,
        inputs, hs.node_eq x hx huntaken, Node.inputs_renamed, map_map]
      exact congrArg _ (map_congr_left hinputs)

/-- A node that stays, or the compound in its place, shows the same columns. -/
theorem columnsOf_exposed (hx : x ∈ p.order) (hstays : x ∉ chains.flatMap dropLast) :
    r.columnsOf (r.exposed (topOf fused x)) =
      (p.columnsOf (p.exposed x)).map (ColumnRef.renamed (topOf fused)) := by
  obtain ⟨hexposed, hlive⟩ := hs.exposed_topOf hp hx hstays
  rw [hexposed]
  exact columnsOf_map fun i hi => hs.columnCount_eq hp hr hwidth i (hlive i hi).1 (hlive i hi).2

end FusedChains

/-! ### The plan in which a chain is fused -/

/-- No aggregate has an operand that its input does not have. -/
def AggregateOperandsInRange (p : Plan) : Prop :=
  ∀ id ∈ p.order, ∀ i ∈ p.inputs id, ∀ k ∈ (p.op id).operands, k < p.columnCount i

instance (p : Plan) : Decidable p.AggregateOperandsInRange :=
  inferInstanceAs (Decidable (∀ _ ∈ _, _))

/-- No projection and no filter refers to a supplied value. -/
def Unsupplied (p : Plan) : Prop :=
  ∀ id ∈ p.order, (p.op id).name ∈ ["Project", "Filter"] →
    ∀ e ∈ (p.op id).exprs, e.suppliedIndices = []

instance (p : Plan) : Decidable p.Unsupplied := inferInstanceAs (Decidable (∀ _ ∈ _, _))

theorem Unsupplied.exprs_of_chained (h : p.Unsupplied) (hchain : p.Chained joinRoots ids stage)
    (hn : n ∈ ids) : ∀ e ∈ (p.op n).exprs, e.suppliedIndices = [] := by
  have hexprs := h n (hchain.subset hn)
  rcases hchain.operator n hn with ⟨c, hop⟩ | ⟨j, hop⟩ | ⟨a, hop⟩ <;> rw [hop] at hexprs ⊢
  · exact hexprs (by simp [Operator.name])
  · exact hexprs (by simp [Operator.name])
  · exact forall_mem_nil _

/-- The last node of a chain of two nodes or more has columns of its own. -/
theorem Chained.own_last (h : p.Chained joinRoots ids stage) (hlength : 2 ≤ ids.length)
    (hlast : ids.getLast? = some last) : ∃ width names, (p.op last).layout = .own width names := by
  cases h with
  | nil => cases hlast
  | @next ids id stage _ hchain _ _ hnext =>
      rw [getLast?_concat] at hlast
      obtain rfl := Option.some.inj hlast
      rcases nextStage?_eq_some hnext with ⟨rfl, -⟩ | ⟨-, -, j, hop⟩ | ⟨-, -, j, hop⟩ |
        ⟨-, -, a, hop⟩
      · rw [ChainWalk.Chained.of_start hchain] at hlength
        exact absurd hlength (by simp)
      all_goals exact ⟨_, _, by rw [hop]; rfl⟩
  | @close ids id _ _ _ hend _ =>
      rw [getLast?_concat] at hlast
      obtain rfl := Option.some.inj hlast
      obtain ⟨j, hop⟩ := endsChain_eq_true hend
      exact ⟨_, _, by rw [hop]; rfl⟩

/-- A chain of two nodes or more has a compound whose lists fit together. -/
theorem Chained.coherent {f : Fusion} {input : NodeId} (h : p.Chained joinRoots ids stage)
    (hp : p.WellFormed) (hlength : 2 ≤ ids.length) (hfirst : ids.head? = some first)
    (hinput : p.inputs first = [input])
    (hunsupplied : ∀ id ∈ ids, ∀ e ∈ (p.op id).exprs, e.suppliedIndices = [])
    (hoperands : ∀ id ∈ ids, ∀ i ∈ p.inputs id, ∀ k ∈ (p.op id).operands, k < p.columnCount i)
    (hf : ids.foldlM p.fuseNode .start = .ok f) :
    ∃ j sources, p.FirstSources ids j sources ∧ f.compound.Coherent sources := by
  have hmade := h.made hp (fun x hx => by
    cases hfirst.symm.trans hx
    exact hinput) hunsupplied hoperands hf
  cases stage with
  | start =>
      rw [ChainWalk.Chained.of_start h] at hlength
      exact absurd hlength (by decide)
  | filtered => exact absurd (ChainWalk.Chained.length_of_filtered h ▸ hlength) (by decide)
  | projected =>
      obtain ⟨j, sources, hsources, -, -, -, hcoherent⟩ := hmade
      exact ⟨j, sources, hsources, hcoherent⟩
  | grouped => exact hmade

namespace FusedChains

variable (hs : FusedChains joinRoots p r chains fused) (hp : p.WellFormed) (hr : r.WellFormed)
  (hwidth : ∀ last k, fused last = some k → r.columnCount k = p.columnCount last)
include hs hp hr hwidth

/-- The aggregates of a chain have no operands that their inputs do not have. -/
theorem operand_lt (hoperands : p.AggregateOperandsInRange)
    (hchain : r.Chained joinRoots ids stage) :
    ∀ n ∈ ids, ∀ i ∈ r.inputs n, ∀ k ∈ (r.op n).operands, k < r.columnCount i := by
  intro n hn i hi k hk
  obtain ⟨hlive, huntaken⟩ := hs.untaken hchain hn
  have hnode := hs.node_eq n hlive huntaken
  rw [Plan.op, hnode, Node.op_renamed, Operator.operands_mapExprs] at hk
  rw [inputs, hnode, Node.inputs_renamed] at hi
  obtain ⟨x, hx, rfl⟩ := mem_map.mp hi
  rw [hs.columnCount_eq hp.arranged hr.arranged hwidth x (hp.arranged.mem_of_input hlive hx)
    (hs.inputs_stay hp.arranged hlive (.inl huntaken) hx)]
  exact hoperands n hlive x hx k hk

/-- The sources with which a compound begins are those of the plan from the start, renamed. -/
theorem firstSources {j : Project} {sources : List Expr} (hchain : r.Chained joinRoots ids stage)
    (h : r.FirstSources ids j sources) : ∃ j' sources', p.FirstSources ids j' sources' ∧
      sources = sources'.map (Expr.mapColumns (ColumnRef.renamed (topOf fused))) := by
  have hnode : ∀ n ∈ ids, r.op n = (p.op n).mapExprs _ ∧ r.inputs n = _ := fun n hn => by
    obtain ⟨hlive, huntaken⟩ := hs.untaken hchain hn
    have hnode := hs.node_eq n hlive huntaken
    exact ⟨congrArg Node.op hnode, congrArg Node.inputs hnode⟩
  cases h with
  | @plain id rest _ hop =>
      obtain ⟨j', hop', hexprs⟩ :=
        Operator.project_of_mapExprs ((hnode id mem_cons_self).1.symm.trans hop)
      exact ⟨j', j'.exprs, .plain hop', hexprs⟩
  | @filtered x id input rest c _ hfilter hop hread hinput =>
      have hidMem : id ∈ x :: id :: rest := mem_cons_of_mem _ mem_cons_self
      obtain ⟨hid, hiduntaken⟩ := hs.untaken hchain hidMem
      obtain ⟨hx, hxuntaken⟩ := hs.untaken hchain (mem_cons_self : x ∈ x :: id :: rest)
      obtain ⟨j', hop', hexprs⟩ :=
        Operator.project_of_mapExprs ((hnode id hidMem).1.symm.trans hop)
      obtain ⟨c', hfilter'⟩ :=
        Operator.filter_of_mapExprs ((hnode x mem_cons_self).1.symm.trans hfilter)
      -- The filter is read under its own handle.
      obtain ⟨y, hread', hy⟩ := map_eq_singleton_iff.mp ((hnode id hidMem).2.symm.trans hread)
      obtain rfl : y = x := by
        by_contra hne
        exact hs.topOf_ne hp.arranged hx hne hy
      obtain ⟨i, hinput', rfl⟩ :=
        map_eq_singleton_iff.mp ((hnode y mem_cons_self).2.symm.trans hinput)
      have hi : i ∈ p.inputs y := by
        rw [inputs, hinput']
        exact mem_singleton_self i
      have houtput := hs.columnsOf_exposed hp.arranged hr.arranged hwidth
        (hp.arranged.mem_of_input hx hi) (hs.inputs_stay hp.arranged hx (.inl hxuntaken) hi)
      refine ⟨j', _, .filtered hfilter' hop' hread' hinput', ?_⟩
      rw [hexprs, map_map, map_map]
      refine map_congr_left fun e he => ?_
      rw [Function.comp_apply, Function.comp_apply, Expr.mapColumns_mapColumns,
        Expr.mapColumns_mapColumns]
      refine Expr.mapColumns_congr fun d hd => ?_
      have hseen : d.source = y := hp.source_eq hid (by rw [hop']; rfl) hread'
        (by rw [hfilter']; rfl) (Operator.mem_columns.mpr ⟨e, by rw [hop']; exact he, hd⟩)
      have hself : d.renamed (topOf fused) = d := by
        rw [ColumnRef.renamed, hseen, hy, ← hseen]
      rw [hself, columnAt, columnAt, houtput, getElem?_map]
      cases (p.columnsOf (p.exposed i))[d.index]? with
      | none => exact hself.symm
      | some column => rfl

end FusedChains

/-! ### Every compound so far -/

/-- The compound for a chain has the columns of its last node, and its lists fit together. -/
structure MadeFrom (p : Plan) (fused : NodeId → Option NodeId) (ids : List NodeId)
    (last : NodeId) (c : Compound) : Prop where
  width_eq : c.targets.length = p.columnCount last
  fields_eq : c.fields = p.columnNames last
  coherent : ∃ j sources, p.FirstSources ids j sources ∧
    c.Coherent (sources.map (Expr.mapColumns (ColumnRef.renamed (topOf fused))))

/-- Another renaming of what a compound reads. -/
theorem MadeFrom.renamed {c : Compound} {σ : NodeId → NodeId} {fused' : NodeId → Option NodeId}
    (h : p.MadeFrom fused ids last c) (hσ : ∀ x, σ (topOf fused x) = topOf fused' x) :
    ∃ d, (Operator.compound c).mapExprs (Expr.mapColumns (ColumnRef.renamed σ)) = .compound d ∧
      p.MadeFrom fused' ids last d := by
  refine ⟨_, rfl, h.width_eq, h.fields_eq, ?_⟩
  obtain ⟨j, sources, hsources, hcoherent⟩ := h.coherent
  refine ⟨j, sources, hsources, ?_⟩
  have hmap : (sources.map (Expr.mapColumns (ColumnRef.renamed (topOf fused)))).map
      (Expr.mapColumns (ColumnRef.renamed σ)) =
      sources.map (Expr.mapColumns (ColumnRef.renamed (topOf fused'))) := by
    rw [map_map]
    refine map_congr_left fun e _ => ?_
    rw [Function.comp_apply, Expr.mapColumns_mapColumns]
    exact Expr.mapColumns_congr fun d _ => by
      rw [ColumnRef.renamed, ColumnRef.renamed, ColumnRef.renamed, hσ]
  rw [← hmap]
  exact hcoherent.mapColumns _

/-- A compound keeps what it reads if another node gets a new handle. -/
theorem mapExprs_of_inSight {c : Compound} {input old : NodeId}
    (hsees : ∀ e ∈ (Operator.compound c).exprs, ∀ l ∈ e.leaves, p.InSight input l)
    (hold : old ∉ p.exposed input) (new : NodeId) :
    (Operator.compound c).mapExprs (Expr.mapColumns (ColumnRef.renamed (old.replaced new))) =
      .compound c := by
  refine (Operator.mapExprs_congr fun e he => ?_).trans (Operator.mapExprs_id _)
  refine (Expr.mapColumns_congr fun d hd => ?_).trans (Expr.mapColumns_id e)
  have hne : d.source ≠ old := fun heq => hold (heq ▸ (column_of_inSight (hsees e he) hd).1)
  rw [ColumnRef.renamed, NodeId.replaced_of_ne new hne]

/-- Chains of a plan were fused, and nothing else was added. -/
structure FusedCompounds (joinRoots : List NodeId) (p r : Plan) (chains : List (List NodeId))
    (fused : NodeId → Option NodeId) : Prop extends FusedChains joinRoots p r chains fused where
  aggregate_before : ∀ n a, r.op n = .aggregate a → p.op n = .aggregate a
  size_le : p.arena.size ≤ r.arena.size
  created : ∀ k : NodeId, p.arena.size ≤ k.index → k.index < r.arena.size →
    ∃ last, fused last = some k
  made : ∀ ids ∈ chains, ∀ last ∈ ids.getLast?, ∀ k ∈ fused last,
    ∃ c, r.op k = .compound c ∧ p.MadeFrom fused ids last c

namespace FusedCompounds

theorem refl (joinRoots : List NodeId) (p : Plan) :
    FusedCompounds joinRoots p p [] fun _ => none where
  toFusedChains := .refl joinRoots p
  aggregate_before _ _ h := h
  size_le := Nat.le_refl _
  created _ hle hlt := absurd hlt (Nat.not_lt_of_le hle)
  made := nofun

variable (hs : FusedCompounds joinRoots p r chains fused) (hp : p.WellFormed) (hr : r.WellFormed)
include hs hr

/-- A compound is as wide as the last node of its chain. -/
theorem columnCount_fused (last k : NodeId) (h : fused last = some k) :
    r.columnCount k = p.columnCount last := by
  obtain ⟨-, hlive, -⟩ := hs.fused_new last k h
  obtain ⟨ids, hids, hlast⟩ := (hs.fused_isSome_iff last).mp (by rw [h]; rfl)
  obtain ⟨c, hop, hmade⟩ := hs.made ids hids last hlast k h
  exact (hr.arranged.columnCount_of_own hlive (by rw [hop]; rfl)).trans hmade.width_eq

include hp

/-- The compound of a chain, in the plan in which that is fused. -/
theorem madeFrom {f : Fusion} {input : NodeId} (hunsupplied : p.Unsupplied)
    (hoperands : p.AggregateOperandsInRange) (hchain : r.Chained joinRoots ids stage)
    (hlength : 2 ≤ ids.length) (hfirst : ids.head? = some first)
    (hinput : r.inputs first = [input]) (hlast : ids.getLast? = some last)
    (hf : ids.foldlM r.fuseNode .start = .ok f) : p.MadeFrom fused ids last f.compound := by
  have hwidth := hs.columnCount_fused hr
  have hbefore := hs.chained_before hp.arranged hs.aggregate_before hchain
  have hnode : ∀ n ∈ ids, n ∈ p.order ∧ n ∉ chains.flatten ∧
      r.op n = (p.op n).mapExprs (Expr.mapColumns (ColumnRef.renamed (topOf fused))) ∧
        r.inputs n = (p.inputs n).map (topOf fused) := fun n hn => by
    obtain ⟨hlive, huntaken⟩ := hs.untaken hchain hn
    have hnode := hs.node_eq n hlive huntaken
    exact ⟨hlive, huntaken, congrArg Node.op hnode, congrArg Node.inputs hnode⟩
  have hcomputes := hchain.computes hr hlength hfirst hinput hlast hf
  obtain ⟨hlastLive, -, hlastOp, -⟩ := hnode last (mem_of_getLast? hlast)
  obtain ⟨width, names, hown⟩ := hbefore.own_last hlength hlast
  have hown' : (r.op last).layout = .own width names := by
    rw [hlastOp, Operator.layout_mapExprs, hown]
  have hlastLive' := hchain.subset (mem_of_getLast? hlast)
  refine ⟨?_, ?_, ?_⟩
  · rw [hcomputes.width, hr.arranged.columnCount_of_own hlastLive' hown',
      hp.arranged.columnCount_of_own hlastLive hown]
  · rw [hcomputes.names, hr.arranged.columnNames_of_own hlastLive' hown',
      hp.arranged.columnNames_of_own hlastLive hown]
  · have hexprs : ∀ n ∈ ids, ∀ e ∈ (r.op n).exprs, e.suppliedIndices = [] := fun n hn e he => by
      rw [(hnode n hn).2.2.1, Operator.exprs_mapExprs, mem_map] at he
      obtain ⟨d, hd, rfl⟩ := he
      rw [Expr.suppliedIndices_mapColumns]
      exact hunsupplied.exprs_of_chained hbefore hn d hd
    have hrange := hs.operand_lt hp hr hwidth hoperands hchain
    obtain ⟨j, sources, hsources, hcoherent⟩ :=
      hchain.coherent hr hlength hfirst hinput hexprs hrange hf
    obtain ⟨j', sources', hsources', rfl⟩ := hs.firstSources hp hr hwidth hchain hsources
    exact ⟨j', sources', hsources', hcoherent⟩

/-- One more chain is fused. -/
theorem step (hunsupplied : p.Unsupplied) (hoperands : p.AggregateOperandsInRange)
    (hchain : r.Chained joinRoots ids stage) (hlength : 2 ≤ ids.length)
    (hfirst : ids.head? = some first) (hlast : ids.getLast? = some last)
    (hq : r.replaceChain ids first last next = .ok (q, next')) :
    FusedCompounds joinRoots p q (ids :: chains)
      (Function.update fused last (some r.nextId)) := by
  obtain ⟨f, input, hf, hinput, hfused⟩ := hr.arranged.toOrdered.fused hchain hlast hq
  have hreplaced := hr.arranged.toOrdered.replaced hchain hlast hq
  have hlastUntaken := (hs.untaken hchain (mem_of_getLast? hlast)).2
  have hrenamed := hs.replaced_top hp.arranged hchain hlast
  refine
    { hs.toFusedChains.step hp.arranged hr.arranged hs.size_le hs.aggregate_before hchain hlength
        hfirst hlast hreplaced with
      aggregate_before := fun n a hop => hs.aggregate_before n a (hreplaced.aggregate_before hop)
      size_le := hreplaced.size_eq ▸ Nat.le_succ_of_le hs.size_le
      created := hs.created_step hreplaced hs.created hlastUntaken
      made := fun ids' hids' last' hlast' k hk => ?_ }
  rcases mem_cons.mp hids' with rfl | hids'
  · obtain rfl := Option.some.inj (hlast.symm.trans hlast')
    rw [Option.mem_def, Function.update_self] at hk
    cases hk
    have hbefore := hchain.input_before hr.arranged.toOrdered hfirst
      (hinput ▸ mem_singleton_self input) last (mem_of_getLast? hlast)
    obtain ⟨d, hop, hmade⟩ := (hs.madeFrom hp hr hunsupplied hoperands hchain hlength hfirst
      hinput hlast hf).renamed hrenamed
    -- The new compound reads what the chain read, and no node of the chain.
    rw [mapExprs_of_inSight (hchain.computes hr hlength hfirst hinput hlast hf).sees
      (hr.arranged.not_mem_exposed hbefore)] at hop
    exact ⟨d, hfused.op_new.trans hop, hmade⟩
  · have hne : last' ≠ last := by
      rintro rfl
      exact hlastUntaken (mem_flatten.mpr ⟨ids', hids', mem_of_getLast? hlast'⟩)
    rw [Option.mem_def, Function.update_of_ne hne] at hk
    obtain ⟨c, hop, hmade⟩ := hs.made ids' hids' last' hlast' k hk
    obtain ⟨d, hopRenamed, hmade⟩ := hmade.renamed hrenamed
    refine ⟨d, ?_, hmade⟩
    rw [Plan.op, (hs.compound_stays hchain hlast hreplaced hr.arranged hk).2, Node.op_renamed,
      ← hopRenamed, ← hop]
    rfl

end FusedCompounds

/-- What is known of every compound once all chains are fused. -/
theorem WellFormed.fusedCompounds (h : p.WellFormed) (hunsupplied : p.Unsupplied)
    (hoperands : p.AggregateOperandsInRange) (hq : p.fuseChains joinRoots next = .ok (q, next')) :
    q.WellFormed ∧ ∃ chains fused, FusedCompounds joinRoots p q chains fused := by
  refine (fuseChains_induct (I := fun r => r.WellFormed ∧
    ∃ chains fused, FusedCompounds joinRoots p r chains fused) ?_ h.arranged.toOrdered
      ⟨h, _, _, .refl joinRoots p⟩ hq).2
  rintro r r' ids stage first last n n' hchain hlength hfirst hlast hr' ⟨hr, chains, fused, hs⟩
  exact ⟨hr.replaceChain hchain hlength hfirst hlast hr', _, _,
    hs.step h hr hunsupplied hoperands hchain hlength hfirst hlast hr'⟩

/-! ### Compounds and their chains -/

/-- A compound stands for a chain of nodes: it has the columns of the last one, its sources begin
with the expressions of the first projection, over its own input, and its lists fit together. -/
structure StandsFor (p q : Plan) (k : NodeId) (c : Compound) (ids : List NodeId) : Prop where
  live : k ∈ q.order
  op_eq : q.op k = .compound c
  length_fields : c.targets.length = c.fields.length
  width_eq : ∀ last ∈ ids.getLast?, p.width last = .ok c.targets.length ∧
    q.width k = .ok c.targets.length
  fieldName_eq : ∀ last ∈ ids.getLast?, ∀ i name, c.fields[i]? = some name →
    p.fieldName last i = .ok name ∧ q.fieldName k i = .ok name
  /-- The sources begin with the first projection, in which each column became the one at the same
  position in what the compound reads. -/
  coherent : ∃ n j x input columns σ,
    ids.find? (fun n => (p.op n).name == "Project") = some n ∧ p.op n = .project j ∧
      p.inputs n = [x] ∧ p.output x = .ok columns ∧
      q.inputs k = [input] ∧ q.output input = .ok (columns.map σ) ∧
      c.Coherent (j.exprs.map (Expr.mapColumns σ))
  /-- Filter and sources refer to columns of what the compound reads, and to no node that is gone. -/
  columns_mem : ∀ d ∈ (Operator.compound c).columns, d.source ∈ q.order ∧
    ∃ input columns, q.inputs k = [input] ∧ q.output input = .ok columns ∧ d ∈ columns

/-- A list of columns, by position. -/
theorem map_columnAt (p : Plan) (id source : NodeId) :
    (ColumnRef.range source (p.columnsOf (p.exposed id)).length).map (p.columnAt id) =
      p.columnsOf (p.exposed id) := by
  refine ext_getElem (by simp) fun i hi hi' => ?_
  simp [ColumnRef.range, columnAt, hi']

/-- The first projection of a chain, over the input of the chain. -/
theorem FirstSources.over {j : Project} {sources : List Expr} {input : NodeId}
    (h : p.FirstSources ids j sources) (hp : p.WellFormed) (hids : ids ⊆ p.order)
    (hfirst : ids.head? = some first) (hinput : p.inputs first = [input]) :
    ∃ n x columns σ, ids.find? (fun n => (p.op n).name == "Project") = some n ∧
      p.op n = .project j ∧ p.inputs n = [x] ∧ p.output x = .ok columns ∧
      p.columnsOf (p.exposed input) = columns.map σ ∧
      sources = j.exprs.map (Expr.mapColumns σ) := by
  have hlive : input ∈ p.order :=
    hp.arranged.mem_of_input (hids (mem_of_head? hfirst)) (hinput ▸ mem_singleton_self input)
  cases h with
  | @plain id rest _ hop =>
      obtain rfl := Option.some.inj hfirst
      refine ⟨id, input, _, fun d => d, ?_, hop, hinput, hp.arranged.output_eq hlive,
        (map_id' _).symm, ?_⟩
      · rw [find?_cons_of_pos (by rw [hop]; rfl)]
      · exact ((map_congr_left fun e _ => Expr.mapColumns_id e).trans (map_id' _)).symm
  | @filtered x id i rest c _ hfilter hop hread hi =>
      obtain rfl := Option.some.inj hfirst
      obtain ⟨rfl, -⟩ := cons.inj (hi.symm.trans hinput)
      have hx : x ∈ p.order := hids mem_cons_self
      have hcolumns : p.output x = .ok (ColumnRef.range x (p.columnsOf (p.exposed i)).length) := by
        rw [output_of_not_join (by rw [hfilter]; rfl), hp.arranged.width_eq hx, length_columnsOf,
          ← hp.arranged.columnCount_eq_sum_exposed hlive,
          hp.arranged.columnCount_of_first hx (by rw [hfilter]; rfl) hi]
        rfl
      refine ⟨id, x, _, _, ?_, hop, hread, hcolumns, (p.map_columnAt i x).symm, rfl⟩
      rw [find?_cons_of_neg (by simp [hfilter, Operator.name]),
        find?_cons_of_pos (by rw [hop]; rfl)]

namespace FusedCompounds

variable (hs : FusedCompounds joinRoots p r chains fused) (hp : p.WellFormed) (hr : r.WellFormed)
  (hids : ids ∈ chains) (hlast : ids.getLast? = some last) (hfused : fused last = some k)
include hs hp hr hids hlast hfused

/-- A compound reads what its chain read, which shows the same columns. -/
theorem input_eq : ∃ first input, ids.head? = some first ∧ p.inputs first = [input] ∧
    r.inputs k = [topOf fused input] ∧ r.output (topOf fused input) =
      .ok ((p.columnsOf (p.exposed input)).map (ColumnRef.renamed (topOf fused))) := by
  obtain ⟨-, stage, hchain⟩ := hs.chained ids hids
  obtain ⟨first, hfirst⟩ : ∃ first, ids.head? = some first :=
    ⟨_, head?_eq_some_head (ne_nil_of_mem (mem_of_getLast? hlast))⟩
  have hfirstLive : first ∈ p.order := hchain.subset (mem_of_head? hfirst)
  obtain ⟨input, hinput, -⟩ := hp.input_of_arity_one hfirstLive
    (hchain.unary first (mem_of_head? hfirst)).1
  have hread : input ∈ p.inputs first := hinput ▸ mem_singleton_self input
  have hrInput : r.inputs k = [topOf fused input] := by
    rw [hs.inputs_fused ids hids first hfirst last hlast k hfused, hinput, map_singleton]
  have hlive : topOf fused input ∈ r.order :=
    hr.arranged.mem_of_input (hs.fused_new last k hfused).2.1 (hrInput ▸ mem_singleton_self _)
  refine ⟨first, input, hfirst, hinput, hrInput, ?_⟩
  rw [hr.arranged.output_eq hlive, hs.columnsOf_exposed hp.arranged hr.arranged
    (hs.columnCount_fused hr) (hp.arranged.mem_of_input hfirstLive hread)
    (hs.inputs_stay hp.arranged hfirstLive (.inr ⟨ids, hids, hfirst⟩) hread)]

/-- A compound has the columns of the last node of its chain. -/
theorem columns_eq {c : Compound} (hop : r.op k = .compound c)
    (hmade : p.MadeFrom fused ids last c) :
    p.width last = .ok c.targets.length ∧ r.width k = .ok c.targets.length ∧
      ∀ i name, c.fields[i]? = some name →
        p.fieldName last i = .ok name ∧ r.fieldName k i = .ok name := by
  obtain ⟨-, stage, hchain⟩ := hs.chained ids hids
  have hlastLive : last ∈ p.order := hchain.subset (mem_of_getLast? hlast)
  obtain ⟨-, hlive, -⟩ := hs.fused_new last k hfused
  refine ⟨?_, ?_, fun i name hname => ⟨?_, ?_⟩⟩
  · rw [hp.arranged.width_eq hlastLive, hmade.width_eq]
  · rw [hr.arranged.width_eq hlive, hmade.width_eq, hs.columnCount_fused hr last k hfused]
  · refine hp.arranged.fieldName_eq hp.arranged.fed hp.fieldsMatch hlastLive ?_
    rw [← hmade.fields_eq, hname]
  · refine hr.arranged.fieldName_eq hr.arranged.fed hr.fieldsMatch hlive ?_
    rw [hr.arranged.columnNames_of_own hlive (by rw [hop]; rfl), hname]

theorem standsFor : ∃ c, StandsFor p r k c ids := by
  obtain ⟨-, stage, hchain⟩ := hs.chained ids hids
  obtain ⟨-, hlive, -⟩ := hs.fused_new last k hfused
  obtain ⟨c, hop, hmade⟩ := hs.made ids hids last hlast k hfused
  obtain ⟨first, input, hfirst, hinput, hrInput, houtput⟩ := hs.input_eq hp hr hids hlast hfused
  obtain ⟨hwidthLast, hwidth, hnames⟩ := hs.columns_eq hp hr hids hlast hfused hop hmade
  refine ⟨c, hlive, hop, ?_, fun last' hlast' => ?_, fun last' hlast' => ?_, ?_, fun d hd => ?_⟩
  · rw [hmade.fields_eq, hmade.width_eq, hp.arranged.length_columnNames hp.fieldsMatch last
      (hchain.subset (mem_of_getLast? hlast))]
  · cases hlast.symm.trans hlast'
    exact ⟨hwidthLast, hwidth⟩
  · cases hlast.symm.trans hlast'
    exact hnames
  · obtain ⟨j, sources, hsources, hcoherent⟩ := hmade.coherent
    obtain ⟨n, x, columns, σ, hfind, hproject, hx, hcolumns, hmap, rfl⟩ :=
      hsources.over hp hchain.subset hfirst hinput
    refine ⟨n, j, x, _, columns, fun d => (σ d).renamed (topOf fused), hfind, hproject, hx,
      hcolumns, hrInput, ?_, ?_⟩
    · rw [houtput, hmap, map_map]
      rfl
    · rw [map_map] at hcoherent
      exact (map_congr_left fun e _ => Expr.mapColumns_mapColumns σ _ e) ▸ hcoherent
  · rw [← hop] at hd
    obtain ⟨columns, hscope, hmem⟩ := hr.inScope k hlive d hd
    refine ⟨hr.arranged.reads_subset hlive (hr.reads_of_mem hlive hd).1, _, columns, hrInput, ?_,
      hmem⟩
    rw [scope, if_neg (by simp [hop, Operator.isJoin]),
      Result.bind_ok (Node.singleInput_eq_ok.mpr hrInput)] at hscope
    exact hscope

end FusedCompounds

/-- **Every compound stands for a chain**, of which no node is left. -/
theorem compound_stands_for_chain (h : p.WellFormed) (hunsupplied : p.Unsupplied)
    (hoperands : p.AggregateOperandsInRange) (hq : p.fuseChains joinRoots next = .ok (q, next'))
    (hnew : p.arena.size ≤ k.index) (hk : k.index < q.arena.size) :
    ∃ ids c, Pattern joinRoots p ids ∧ (∀ n ∈ ids, n ∈ p.order ∧ n ∉ q.order) ∧
      StandsFor p q k c ids := by
  obtain ⟨hqWf, chains, fused, hs⟩ := h.fusedCompounds hunsupplied hoperands hq
  obtain ⟨last, hfused⟩ := hs.created k hnew hk
  obtain ⟨ids, hids, hlast⟩ := (hs.fused_isSome_iff last).mp (by rw [hfused]; rfl)
  obtain ⟨hlength, stage, hchain⟩ := hs.chained ids hids
  obtain ⟨c, hstands⟩ := hs.standsFor h hqWf hids hlast hfused
  refine ⟨ids, c, hchain.pattern h.arranged hlength, fun n hn => ⟨hchain.subset hn, ?_⟩, hstands⟩
  intro hlive
  rcases hs.mem_order.mp hlive with ⟨-, huntaken⟩ | ⟨a, ha⟩
  · exact huntaken (mem_flatten.mpr ⟨ids, hids, hn⟩)
  · exact absurd (h.inArena (hchain.subset hn)) (Nat.not_lt_of_le (hs.fused_new a n ha).1)

/-- Maxima of the groups of filtered rows. -/
def maximaOfGroups : Plan :=
  { arena := #[.make 0 [] (.values ⟨[⟨"a", .condition⟩, ⟨"b", .condition⟩],
        [[.bool true, .bool false]]⟩),
      .make 1 [⟨0⟩] (.filter ⟨.column ⟨⟨0⟩, 0⟩⟩),
      .make 2 [⟨1⟩] (.project (.plain [.column ⟨⟨1⟩, 0⟩, .column ⟨⟨1⟩, 1⟩] ["a", "b"])),
      .make 3 [⟨2⟩] (.aggregate ⟨1, [⟨.max, false, .condition, [1]⟩], ["a", "max"], false⟩),
      .make 4 [⟨3⟩] (.project (.plain [.column ⟨⟨3⟩, 1⟩, .column ⟨⟨3⟩, 0⟩] ["max", "a"]))]
    order := (range 5).map NodeId.mk }

/-- The targets of a compound. -/
def targets? (p : Plan) (id : NodeId) : Option (List CompoundTarget) :=
  match p.op id with
  | .compound c => some c.targets
  | _ => none

/-- Everything above the rows becomes one compound, which begins with a call. -/
theorem compound_stands_for_chain_maximaOfGroups : ∃ q ids c,
    maximaOfGroups.WellFormed ∧ maximaOfGroups.Unsupplied ∧
      maximaOfGroups.AggregateOperandsInRange ∧ maximaOfGroups.fuseChains [] 5 = .ok (q, 6) ∧
      maximaOfGroups.arena.size ≤ 5 ∧ 5 < q.arena.size ∧ q.order = [⟨0⟩, ⟨5⟩] ∧
      Pattern [] maximaOfGroups ids ∧ StandsFor maximaOfGroups q ⟨5⟩ c ids ∧
      c.targets = [.call 0, .source 2] := by
  have hwf : maximaOfGroups.WellFormed :=
    wellFormed_of_reads ⟨⟨by decide, by decide, by decide⟩, by decide⟩ (by decide) (by decide)
      (by decide +kernel)
  have hunsupplied : maximaOfGroups.Unsupplied := by decide +kernel
  have hoperands : maximaOfGroups.AggregateOperandsInRange := by decide +kernel
  have hrun : (maximaOfGroups.fuseChains [] 5).holds (fun s => s.2 == 6 &&
      s.1.arena.size == 6 && s.1.order == [⟨0⟩, ⟨5⟩] &&
        s.1.targets? ⟨5⟩ == some [.call 0, .source 2]) = true := by
    decide +kernel
  obtain ⟨⟨q, n⟩, hq, hresult⟩ := Result.holds_eq_true.mp hrun
  simp only [Bool.and_eq_true, beq_iff_eq] at hresult
  obtain ⟨⟨⟨rfl, hsize⟩, horder⟩, htargets⟩ := hresult
  have hnew : 5 < q.arena.size := by omega
  obtain ⟨ids, c, hpattern, -, hstands⟩ :=
    compound_stands_for_chain hwf hunsupplied hoperands hq (k := ⟨5⟩) (by decide) hnew
  refine ⟨q, ids, c, hwf, hunsupplied, hoperands, hq, by decide, hnew, horder, hpattern,
    hstands, ?_⟩
  rw [targets?, hstands.op_eq] at htargets
  exact Option.some.inj htargets

end Plan

end QueryPlan
