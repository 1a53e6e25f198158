import QueryPlan.Proofs.Meaning.Fusion
/-!
# QueryPlan.Proofs.Meaning.ChainFusion

**Fusing chains keeps the rows.** Nodes that stay are renamed, together with the columns that they
read, and different nodes have different handles. So they make the same rows from the same inputs
(`FusedChains.nodeRows_eq`), and a chain that is fused later makes the rows that it made from the
start (`FusedChains.rowsAlong_eq`). The compound makes these rows as well (`Plan.FusedRows`).

A chain is not kept if it computes over its groups what is not computed from their first key. Such
an expression is evaluated before the rows are grouped then, and window functions number the wrong
rows (`Plan.chain_fusion_changes_rows_countedGroups`).
-/

namespace QueryPlan

open List

namespace Plan

variable {p q r : Plan} {chains : List (List NodeId)} {fused : NodeId → Option NodeId}
  {ids joinRoots : List NodeId} {first last n x y : NodeId} {stage : ChainStage}
  {next next' : Nat} {V : Type} [DecidableEq V] {M : Meaning V} {rows : Rows V}

/-- The rows of a node come from those of its inputs. -/
theorem Ordered.rows_eq_nodeRows {l : List NodeId} (h : p.Ordered l) (hn : n ∈ l) :
    p.rows M n = p.nodeRows M n ((p.inputs n).map (p.rows M)) := h.rows_eq hn

/-! ### Nodes that stay -/

namespace FusedChains

variable (hs : FusedChains joinRoots p r chains fused)
include hs

/-- Different nodes that stay have different handles. -/
theorem topOf_inj (hp : p.Arranged p.order) (hx : x ∈ p.order) (hy : y ∈ p.order)
    (h : topOf fused x = topOf fused y) : x = y := by
  by_contra hne
  cases hxfused : fused x with
  | none =>
      have hself : topOf fused x = x := by
        rw [topOf, hxfused]
        rfl
      exact hs.topOf_ne hp hx (Ne.symm hne) (h.symm.trans hself)
  | some k =>
      cases hyfused : fused y with
      | none =>
          have hself : topOf fused y = y := by
            rw [topOf, hyfused]
            rfl
          exact hs.topOf_ne hp hy hne (h.trans hself)
      | some l =>
          rw [topOf, topOf, hxfused, hyfused, Option.getD_some, Option.getD_some] at h
          exact hne (hs.fused_inj x y k hxfused (h ▸ hyfused))

/-- What stays refers to the same nodes, under other handles. -/
theorem reads_topOf (hp : p.Arranged p.order) (hx : x ∈ p.order) (huntaken : x ∉ chains.flatten) :
    r.reads x = (p.reads x).map (topOf fused) ∧
      ∀ i ∈ p.reads x, i ∈ p.order ∧ i ∉ chains.flatMap dropLast := by
  have hnode := hs.node_eq x hx huntaken
  have hinputs : ∀ i ∈ p.inputs x, i ∈ p.order ∧ i ∉ chains.flatMap dropLast := fun i hi =>
    ⟨hp.mem_of_input hx hi, hs.inputs_stay hp hx (.inl huntaken) hi⟩
  have hexposed := fun i hi => hs.exposed_topOf hp (hinputs i hi).1 (hinputs i hi).2
  refine ⟨reads_map ?_ ?_ fun _ i hi => (hexposed i hi).1, fun i hi => ?_⟩
  · rw [Plan.op, hnode, Node.op_renamed, Operator.isJoin_mapExprs]
    rfl
  · rw [inputs, hnode, Node.inputs_renamed]
    rfl
  · cases hop : (p.op x).isJoin with
    | true => exact hinputs i (reads_of_join hop ▸ hi)
    | false =>
        obtain ⟨y, hy, hi⟩ := (mem_reads_of_not_join hop).mp hi
        exact (hexposed y hy).2 i hi

variable (hp : p.WellFormed) (hr : r.Arranged r.order)
  (hwidth : ∀ last k, fused last = some k → r.columnCount k = p.columnCount last)
include hp hr hwidth

/-- A node that stays makes the same rows. -/
theorem nodeRows_eq (hx : x ∈ p.order) (huntaken : x ∉ chains.flatten) (inputs : List (Rows V)) :
    r.nodeRows M x inputs = p.nodeRows M x inputs := by
  have hnode := hs.node_eq x hx huntaken
  obtain ⟨hreads, hlive⟩ := hs.reads_topOf hp.arranged hx huntaken
  have hcount := hs.columnCount_eq hp.arranged hr hwidth
  have hscope : r.columnsOf (r.reads x) =
      (p.columnsOf (p.reads x)).map (ColumnRef.renamed (topOf fused)) := by
    rw [hreads]
    exact columnsOf_map fun i hi => hcount i (hlive i hi).1 (hlive i hi).2
  have hwidths : (r.inputs x).map r.columnCount = (p.inputs x).map p.columnCount := by
    rw [Plan.inputs, hnode, Node.inputs_renamed, map_map]
    exact map_congr_left fun i hi => hcount i (hp.arranged.mem_of_input hx hi)
      (hs.inputs_stay hp.arranged hx (.inl huntaken) hi)
  rw [nodeRows, hscope, hwidths, Plan.op, hnode, Node.op_renamed]
  refine Meaning.node_mapColumns (fun c hc => idxOf_map_of_inj fun d hd heq => ?_) _ _
  rw [ColumnRef.renamed, ColumnRef.renamed, ColumnRef.mk.injEq] at heq
  have hsource : d.source = c.source := hs.topOf_inj hp.arranged
    (hlive _ (mem_columnsOf.mp hd).1).1 (hlive _ (hp.reads_of_mem hx hc).1).1 heq.1
  exact congrArg₂ ColumnRef.mk hsource heq.2

/-- A chain of nodes that stay makes the same rows. -/
theorem rowsAlong_eq (hids : ∀ n ∈ ids, n ∈ p.order ∧ n ∉ chains.flatten) (rows : Rows V) :
    r.rowsAlong M ids rows = p.rowsAlong M ids rows :=
  foldl_ext _ _ _ fun _ n hn => hs.nodeRows_eq hp hr hwidth (hids n hn).1 (hids n hn).2 _

omit hr hwidth in
/-- A chain that may be inlined still may. -/
theorem inlinable (h : p.Inlinable ids) (hids : ∀ n ∈ ids, n ∈ p.order ∧ n ∉ chains.flatten) :
    r.Inlinable ids := by
  have hop : ∀ n ∈ ids, r.op n = (p.op n).mapExprs _ := fun n hn =>
    congrArg Node.op (hs.node_eq n (hids n hn).1 (hids n hn).2)
  have hname : ∀ n ∈ ids, (r.op n).name = (p.op n).name := fun n hn => by
    rw [hop n hn]
    cases p.op n <;> rfl
  refine ⟨fun n hn hfilter => ?_, fun n hn x hx hread haggregate e he hcolumn => ?_⟩
  · obtain ⟨hreads, hlive⟩ := hs.reads_topOf hp.arranged (hids n hn).1 (hids n hn).2
    rw [hreads]
    exact (h.1 n hn (hname n hn ▸ hfilter)).map_on fun i hi j hj heq =>
      hs.topOf_inj hp.arranged (hlive i hi).1 (hlive j hj).1 heq
  · have hinputs : r.inputs n = (p.inputs n).map (topOf fused) :=
      congrArg Node.inputs (hs.node_eq n (hids n hn).1 (hids n hn).2)
    obtain ⟨y, hy, htop⟩ := mem_map.mp (hinputs ▸ hread)
    obtain rfl : y = x := by
      by_contra hne
      exact hs.topOf_ne hp.arranged (hids x hx).1 hne htop
    rw [hop n hn, Operator.exprs_mapExprs, mem_map] at he
    obtain ⟨d, hd, rfl⟩ := he
    rw [Expr.isColumn_mapColumns] at hcolumn
    obtain ⟨hwindow, hkey⟩ := h.2 n hn y hx hy (hname y hx ▸ haggregate) d hd hcolumn
    refine ⟨(Expr.hasWindow_mapColumns _ d).trans hwindow, ?_⟩
    unfold isFirstKey at hkey ⊢
    rw [hop y hx]
    cases hcase : p.op y <;> rw [hcase] at hkey <;> exact hkey

end FusedChains

/-! ### One more chain -/

section Once

variable (hr : r.WellFormed) (hchain : r.Chained joinRoots ids stage) (hlength : 2 ≤ ids.length)
  (hfirst : ids.head? = some first) (hlast : ids.getLast? = some last)
  (hq : r.replaceChain ids first last next = .ok (q, next'))
include hr hchain hlength hfirst hlast hq

/-- The fusion of one chain. -/
theorem WellFormed.fusedOnce :
    FusedChains joinRoots r q [ids] (Function.update (fun _ => none) last (some r.nextId)) :=
  (FusedChains.refl joinRoots r).step hr.arranged hr.arranged (Nat.le_refl _) (fun _ _ h => h)
    hchain hlength hfirst hlast (hr.arranged.toOrdered.replaced hchain hlast hq)

/-- The compound is as wide as the last node of the chain. -/
theorem WellFormed.columnCount_nextId : q.columnCount r.nextId = r.columnCount last := by
  obtain ⟨f, input, hf, hinput, hfused⟩ := hr.arranged.toOrdered.fused hchain hlast hq
  have hwf := hr.replaceChain hchain hlength hfirst hlast hq
  obtain ⟨-, hlive, -⟩ := (hr.fusedOnce hchain hlength hfirst hlast hq).fused_new last r.nextId
    (Function.update_self ..)
  rw [hwf.arranged.columnCount_of_own hlive (by rw [hfused.op_new]; rfl)]
  exact (hchain.computes hr hlength hfirst hinput hlast hf).width

theorem WellFormed.columnCount_once (last' k : NodeId)
    (hk : Function.update (fun _ => none) last (some r.nextId) last' = some k) :
    q.columnCount k = r.columnCount last' := by
  by_cases hlast' : last' = last
  · rw [hlast', Function.update_self] at hk
    cases hk
    rw [hlast']
    exact hr.columnCount_nextId hchain hlength hfirst hlast hq
  · rw [Function.update_of_ne hlast'] at hk
    cases hk

/-- The compound makes the rows of the chain. -/
theorem WellFormed.nodeRows_nextId (hinlinable : r.Inlinable ids)
    (hoperands : ∀ n ∈ ids, ∀ i ∈ r.inputs n, ∀ k ∈ (r.op n).operands, k < r.columnCount i) :
    q.nodeRows M r.nextId [rows] = r.rowsAlong M ids rows := by
  have hone := hr.fusedOnce hchain hlength hfirst hlast hq
  have hwf := hr.replaceChain hchain hlength hfirst hlast hq
  have hwidth := hr.columnCount_once hchain hlength hfirst hlast hq
  obtain ⟨f, input, hf, hinput, hfused⟩ := hr.arranged.toOrdered.fused hchain hlast hq
  have hread : input ∈ r.inputs first := hinput ▸ mem_singleton_self input
  have hbefore := hchain.input_before hr.arranged.toOrdered hfirst hread last
    (mem_of_getLast? hlast)
  have hfirstLive : first ∈ r.order := hchain.subset (mem_of_head? hfirst)
  -- The chain's input and what it exposes keep their handles.
  have hself : ∀ x, x ≠ last →
      topOf (Function.update (fun _ => none) last (some r.nextId)) x = x := fun x hx =>
    topOf_update_of_ne _ hx
  have hqInput : q.inputs r.nextId = [input] := by
    rw [hone.inputs_fused ids (mem_singleton_self ids) first hfirst last hlast r.nextId
      (Function.update_self ..), hinput, map_singleton, hself input
        (ne_of_pair hr.nodup hbefore)]
  have hscope : q.columnsOf (q.exposed input) = r.columnsOf (r.exposed input) := by
    have hexposed := hone.columnsOf_exposed hr.arranged hwf.arranged hwidth
      (hr.arranged.mem_of_input hfirstLive hread)
      (hone.inputs_stay hr.arranged hfirstLive (.inr ⟨ids, mem_singleton_self ids, hfirst⟩) hread)
    rw [hself input (ne_of_pair hr.nodup hbefore)] at hexposed
    rw [hexposed]
    refine (map_congr_left fun c hc => ?_).trans (map_id' _)
    rw [ColumnRef.renamed, hself c.source]
    exact fun heq => hr.arranged.not_mem_exposed hbefore (heq ▸ (mem_columnsOf.mp hc).1)
  rw [nodeRows, reads_of_input (by rw [hfused.op_new]; rfl) hqInput, hscope, hfused.op_new]
  exact hchain.compounded_eq hr hlength hfirst hinput hinlinable hoperands hf

end Once

/-! ### All chains -/

/-- The compounds of some chains make the rows of the chains. -/
structure FusedRows (p r : Plan) (chains : List (List NodeId)) (fused : NodeId → Option NodeId) :
    Prop where
  wellFormed : r.WellFormed
  created : ∀ k : NodeId, p.arena.size ≤ k.index → k.index < r.arena.size →
    ∃ last, fused last = some k
  width_eq : ∀ last k, fused last = some k → r.columnCount k = p.columnCount last
  rows_eq : ∀ ids ∈ chains, p.Inlinable ids → ∀ last ∈ ids.getLast?, ∀ k ∈ fused last,
    ∀ {V : Type} [DecidableEq V] (M : Meaning V) (rows : Rows V),
      r.nodeRows M k [rows] = p.rowsAlong M ids rows

theorem FusedRows.refl (hp : p.WellFormed) : FusedRows p p [] fun _ => none where
  wellFormed := hp
  created _ hle hlt := absurd hlt (Nat.not_lt_of_le hle)
  width_eq := nofun
  rows_eq := nofun

/-- One more chain is fused. -/
theorem FusedRows.step (h : FusedRows p r chains fused)
    (hs : FusedChains joinRoots p r chains fused) (hp : p.WellFormed)
    (hoperands : p.AggregateOperandsInRange) (hchain : r.Chained joinRoots ids stage) (hlength : 2 ≤ ids.length)
    (hfirst : ids.head? = some first) (hlast : ids.getLast? = some last)
    (hq : r.replaceChain ids first last next = .ok (q, next')) :
    FusedRows p q (ids :: chains) (Function.update fused last (some r.nextId)) := by
  have hr := h.wellFormed
  have hone := hr.fusedOnce hchain hlength hfirst hlast hq
  have honeWidth := hr.columnCount_once hchain hlength hfirst hlast hq
  have hwf := hr.replaceChain hchain hlength hfirst hlast hq
  have huntaken : ∀ n ∈ ids, n ∈ p.order ∧ n ∉ chains.flatten := fun n hn => hs.untaken hchain hn
  obtain ⟨hlastLive, hlastUntaken⟩ := huntaken last (mem_of_getLast? hlast)
  -- The compounds of other chains stay.
  have hcompound : ∀ n k, fused n = some k → k ∈ r.order ∧ k ∉ [ids].flatten ∧ n ≠ last := by
    intro n k hk
    obtain ⟨-, hlive, c, hop⟩ := hs.fused_new n k hk
    refine ⟨hlive, fun hmem => ?_, ?_⟩
    · rw [flatten_singleton] at hmem
      exact hchain.op_ne_compound k hmem hop
    · rintro rfl
      cases (hs.fused_eq_none hlastUntaken).symm.trans hk
  refine ⟨hwf, hs.created_step (hr.arranged.toOrdered.replaced hchain hlast hq) h.created
      hlastUntaken, fun last' k hk => ?_, fun ids' hids' hinlinable last' hlast' k hk V _ M rows => ?_⟩
  · by_cases hnew : last' = last
    · rw [hnew, Function.update_self] at hk
      cases hk
      have hcount := hs.columnCount_eq hp.arranged hr.arranged h.width_eq last hlastLive
        (not_mem_front hlastUntaken)
      rw [hs.topOf_eq_self hlastUntaken] at hcount
      rw [hnew, hr.columnCount_nextId hchain hlength hfirst hlast hq, hcount]
    · rw [Function.update_of_ne hnew] at hk
      obtain ⟨hlive, hkUntaken, -⟩ := hcompound last' k hk
      have hcount := hone.columnCount_eq hr.arranged hwf.arranged honeWidth k hlive
        (not_mem_front hkUntaken)
      rw [hone.topOf_eq_self hkUntaken] at hcount
      rw [hcount, h.width_eq last' k hk]
  · rcases mem_cons.mp hids' with rfl | hids'
    · obtain rfl := Option.some.inj (hlast.symm.trans hlast')
      rw [Option.mem_def, Function.update_self] at hk
      cases hk
      rw [hr.nodeRows_nextId hchain hlength hfirst hlast hq (hs.inlinable hp hinlinable huntaken)
        (hs.operand_lt hp hr h.width_eq hoperands hchain)]
      exact hs.rowsAlong_eq hp hr.arranged h.width_eq huntaken rows
    · have hold : last' ≠ last := by
        rintro rfl
        exact hlastUntaken (mem_flatten.mpr ⟨ids', hids', mem_of_getLast? hlast'⟩)
      rw [Option.mem_def, Function.update_of_ne hold] at hk
      obtain ⟨hlive, hkUntaken, -⟩ := hcompound last' k hk
      rw [hone.nodeRows_eq hr hwf.arranged honeWidth hlive hkUntaken]
      exact h.rows_eq ids' hids' hinlinable last' hlast' k hk M rows

/-- Nodes that read one another make their rows one after the other. -/
theorem Ordered.rowsAlong_eq {input : NodeId} (h : p.Ordered p.order) (hids : ids ⊆ p.order)
    (hlinks : ids.IsChain p.Link) (hfirst : ids.head? = some first)
    (hinput : p.inputs first = [input]) (hlast : ids.getLast? = some last) :
    p.rowsAlong M ids (p.rows M input) = p.rows M last := by
  induction ids generalizing first input with
  | nil => cases hfirst
  | cons n ids ih =>
      obtain rfl := Option.some.inj hfirst
      have hrows : p.rows M n = p.nodeRows M n [p.rows M input] := by
        rw [h.rows_eq_nodeRows (hids mem_cons_self), hinput, map_singleton]
      rw [rowsAlong, foldl_cons, ← hrows]
      cases ids with
      | nil =>
          obtain rfl := Option.some.inj hlast
          rfl
      | cons m ids =>
          obtain ⟨hlink, hlinks⟩ := isChain_cons_cons.mp hlinks
          refine ih (fun x hx => hids (mem_cons_of_mem _ hx)) hlinks rfl hlink.inputs_eq ?_
          rwa [getLast?_cons_cons] at hlast

/-- If all chains may be inlined, what stays has the rows that it had. -/
theorem FusedRows.rows_topOf (h : FusedRows p q chains fused)
    (hs : FusedChains joinRoots p q chains fused) (hp : p.WellFormed)
    (hinlinable : ∀ ids ∈ chains, p.Inlinable ids) :
    ∀ n ∈ p.order, n ∉ chains.flatMap dropLast → q.rows M (topOf fused n) = p.rows M n := by
  have hq := h.wellFormed.arranged
  -- What a chain reads has its rows as well, for all nodes of the chain.
  suffices hboth : ∀ n ∈ p.order,
      (n ∉ chains.flatMap dropLast → q.rows M (topOf fused n) = p.rows M n) ∧
        ∀ ids ∈ chains, n ∈ ids → ∀ first ∈ ids.head?, ∀ i ∈ p.inputs first,
          q.rows M (topOf fused i) = p.rows M i from fun n hn => (hboth n hn).1
  refine hp.arranged.toOrdered.induction fun n hn ih => ?_
  have hread : ∀ ids ∈ chains, n ∈ ids → ∀ first ∈ ids.head?, ∀ i ∈ p.inputs first,
      q.rows M (topOf fused i) = p.rows M i := by
    intro ids hids hmem first hfirst i hi
    obtain ⟨-, stage, hchain⟩ := hs.chained ids hids
    rcases hchain.inputs_eq hp.arranged hmem with hhead | ⟨x, hx, hinputs⟩
    · obtain rfl := Option.some.inj (hhead.symm.trans hfirst)
      exact (ih i hi).1 (hs.inputs_stay hp.arranged hn (.inr ⟨ids, hids, hhead⟩) hi)
    · exact (ih x (hinputs ▸ mem_singleton_self x)).2 ids hids hx first hfirst i hi
  refine ⟨fun hstays => ?_, hread⟩
  cases hfused : fused n with
  | none =>
      have huntaken := hs.not_mem_flatten hstays hfused
      have hlive : n ∈ q.order := hs.mem_order.mpr (.inl ⟨hn, huntaken⟩)
      have hinputs : q.inputs n = (p.inputs n).map (topOf fused) :=
        congrArg Node.inputs (hs.node_eq n hn huntaken)
      rw [hs.topOf_eq_self huntaken, hq.toOrdered.rows_eq_nodeRows hlive,
        hs.nodeRows_eq hp hq h.width_eq hn huntaken, hinputs, map_map,
        hp.arranged.toOrdered.rows_eq_nodeRows hn]
      refine congrArg _ (map_congr_left fun i hi => ?_)
      exact (ih i hi).1 (hs.inputs_stay hp.arranged hn (.inl huntaken) hi)
  | some k =>
      obtain ⟨ids, hids, hlast⟩ := (hs.fused_isSome_iff n).mp (by rw [hfused]; rfl)
      obtain ⟨hlength, stage, hchain⟩ := hs.chained ids hids
      obtain ⟨first, hfirst⟩ : ∃ first, ids.head? = some first :=
        ⟨_, head?_eq_some_head (ne_nil_of_mem (mem_of_getLast? hlast))⟩
      obtain ⟨input, hinput, -⟩ := hp.input_of_arity_one
        (hchain.subset (mem_of_head? hfirst)) (hchain.unary first (mem_of_head? hfirst)).1
      have hinputs : q.inputs k = [topOf fused input] := by
        rw [hs.inputs_fused ids hids first hfirst n hlast k hfused, hinput, map_singleton]
      rw [topOf, hfused, Option.getD_some,
        hq.toOrdered.rows_eq_nodeRows (hs.fused_new n k hfused).2.1, hinputs, map_singleton,
        hread ids hids (mem_of_getLast? hlast) first hfirst input
          (hinput ▸ mem_singleton_self input),
        h.rows_eq ids hids (hinlinable ids hids) n hlast k hfused]
      exact hp.arranged.toOrdered.rowsAlong_eq hchain.subset (hchain.isChain_link hp.arranged)
        hfirst hinput hlast

/-- **Fusing chains keeps the rows** of chains that may be inlined. Every compound stands for a
pattern and makes from any rows what the nodes of the pattern make one after the other. If this
holds of all chains, every node that stays has the rows that it had, and so has every compound. -/
theorem chain_fusion_keeps_rows (h : p.WellFormed) (hoperands : p.AggregateOperandsInRange)
    (hq : p.fuseChains joinRoots next = .ok (q, next')) :
    ∃ chains fused, FusedChains joinRoots p q chains fused ∧
      (∀ k : NodeId, p.arena.size ≤ k.index → k.index < q.arena.size →
        ∃ ids ∈ chains, ∃ last ∈ ids.getLast?, fused last = some k ∧ Pattern joinRoots p ids ∧
          (p.Inlinable ids → ∀ {V : Type} [DecidableEq V] (M : Meaning V) (rows : Rows V),
            q.nodeRows M k [rows] = p.rowsAlong M ids rows)) ∧
      ((∀ ids ∈ chains, p.Inlinable ids) → ∀ {V : Type} [DecidableEq V] (M : Meaning V),
        ∀ n ∈ p.order, n ∉ chains.flatMap dropLast → q.rows M (topOf fused n) = p.rows M n) := by
  obtain ⟨chains, fused, hs, hrows⟩ := h.arranged.fusedChains_induct (motive := FusedRows p)
    (.refl h) (fun hs _ _ hchain hlength hfirst hlast hstep hrows =>
      hrows.step hs h hoperands hchain hlength hfirst hlast hstep) hq
  refine ⟨chains, fused, hs, fun k hle hlt => ?_, fun hinlinable V _ M =>
    hrows.rows_topOf hs h hinlinable⟩
  obtain ⟨last, hfused⟩ := hrows.created k hle hlt
  obtain ⟨ids, hids, hlast⟩ := (hs.fused_isSome_iff last).mp (by rw [hfused]; rfl)
  obtain ⟨hlength, stage, hchain⟩ := hs.chained ids hids
  exact ⟨ids, hids, last, hlast, hfused, hchain.pattern h.arranged hlength,
    fun hinlinable => hrows.rows_eq ids hids hinlinable last hlast k hfused⟩

/-- Groups of filtered rows, whose keys are compared. A filter that reads the result stays. -/
def comparedGroups : Plan :=
  let key : Expr := .column ⟨⟨3⟩, 0⟩
  let values := [[true, true], [true, false], [false, true]]
  { arena := #[.make 0 [] (.values ⟨[⟨"a", .condition⟩, ⟨"b", .condition⟩],
        values.map (map .bool)⟩),
      .make 1 [⟨0⟩] (.filter ⟨.column ⟨⟨0⟩, 0⟩⟩),
      .make 2 [⟨1⟩] (.project (.plain [.column ⟨⟨1⟩, 1⟩] ["b"])),
      .make 3 [⟨2⟩] (.aggregate ⟨1, [], ["b"], false⟩),
      .make 4 [⟨3⟩] (.project (.plain [key, .app (.operator .eq .condition) [key, key]]
        ["b", "same"])),
      .make 5 [⟨4⟩] (.filter ⟨.column ⟨⟨4⟩, 1⟩⟩)]
    order := (range 6).map NodeId.mk }

/-- The compound makes of two rows what the chain makes of them, and the filter has its rows. -/
theorem chain_fusion_keeps_rows_comparedGroups : ∃ q ids,
    comparedGroups.WellFormed ∧ comparedGroups.AggregateOperandsInRange ∧
      comparedGroups.fuseChains [] 6 = .ok (q, 7) ∧ q.order = [⟨0⟩, ⟨6⟩, ⟨5⟩] ∧
      Pattern [] comparedGroups ids ∧ comparedGroups.Inlinable ids ∧
      (∀ rows, q.nodeRows .ofEqualities ⟨6⟩ [rows] =
        comparedGroups.rowsAlong .ofEqualities ids rows) ∧
      q.rows .ofEqualities ⟨5⟩ = [[some true, some true], [some false, some true]] := by
  have hwf : comparedGroups.WellFormed :=
    wellFormed_of_reads ⟨⟨by decide, by decide, by decide⟩, by decide⟩ (by decide) (by decide)
      (by decide +kernel)
  have hoperands : comparedGroups.AggregateOperandsInRange := by decide +kernel
  have hall : comparedGroups.Inlinable comparedGroups.order := by decide +kernel
  have hrun : (comparedGroups.fuseChains [] 6).holds (fun s => s.2 == 7 &&
      s.1.arena.size == 7 && s.1.order == [⟨0⟩, ⟨6⟩, ⟨5⟩]) = true := by
    decide +kernel
  obtain ⟨⟨q, n⟩, hq, hresult⟩ := Result.holds_eq_true.mp hrun
  simp only [Bool.and_eq_true, beq_iff_eq] at hresult
  obtain ⟨⟨rfl, hsize⟩, horder⟩ := hresult
  obtain ⟨chains, fused, hs, hcompounds, hrows⟩ := chain_fusion_keeps_rows hwf hoperands hq
  have hinlinable : ∀ ids ∈ chains, comparedGroups.Inlinable ids := fun ids hids => by
    obtain ⟨-, stage, hchain⟩ := hs.chained ids hids
    exact hall.mono hchain.subset
  have hnew : 6 < q.arena.size := by omega
  obtain ⟨ids, hids, last, hlast, -, hpattern, hsame⟩ := hcompounds ⟨6⟩ (by decide) hnew
  -- The upper filter is as old as the plan, so no chain took it.
  have hstays : (⟨5⟩ : NodeId) ∉ chains.flatten := by
    have hlive : (⟨5⟩ : NodeId) ∈ q.order := by
      rw [horder]
      decide
    rcases hs.mem_order.mp hlive with ⟨-, huntaken⟩ | ⟨a, ha⟩
    · exact huntaken
    · exact absurd (hs.fused_new a _ ha).1 (by decide)
  refine ⟨q, ids, hwf, hoperands, hq, horder, hpattern, hinlinable ids hids,
    hsame (hinlinable ids hids) _, ?_⟩
  have hfilter := hrows hinlinable .ofEqualities ⟨5⟩ (by decide) (not_mem_front hstays)
  rw [hs.topOf_eq_self hstays] at hfilter
  rw [hfilter]
  decide +kernel

end Plan

namespace Meaning

/-- Truth values, where a scan has three rows and a window function is true at the second row. -/
def ofSecondRow : Meaning (Option Bool) :=
  { ofTruthValues with
    scan := fun _ => [[some true], [some true], [some false]]
    window := fun _ _ i => some (i == 1) }

end Meaning

namespace Plan

/-- Groups that are counted by a window function. -/
def countedGroups : Plan :=
  let number : Expr := .app (.window { (default : WindowCall) with kind := .rowNumber }) []
  { arena := #[.make 0 [] (.scan { (default : Scan) with fields := ["a"] }),
      .make 1 [⟨0⟩] (.project (.plain [.column ⟨⟨0⟩, 0⟩] ["a"])),
      .make 2 [⟨1⟩] (.aggregate ⟨1, [], ["g"], false⟩),
      .make 3 [⟨2⟩] (.project (.plain [.column ⟨⟨2⟩, 0⟩, number] ["g", "n"]))]
    order := (range 4).map NodeId.mk }

/-- The second group begins with the third row, and the window function is evaluated there. -/
theorem chain_fusion_changes_rows_countedGroups : ∃ q,
    countedGroups.WellFormed ∧ countedGroups.AggregateOperandsInRange ∧
      countedGroups.fuseChains [] 4 = .ok (q, 5) ∧ q.order = [⟨0⟩, ⟨4⟩] ∧
      countedGroups.rows .ofSecondRow ⟨3⟩ = [[some true, some false], [some false, some true]] ∧
      q.rows .ofSecondRow ⟨4⟩ = [[some true, some false], [some false, some false]] := by
  have hwf : countedGroups.WellFormed :=
    wellFormed_of_reads ⟨⟨by decide, by decide, by decide⟩, by decide⟩ (by decide) (by decide)
      (by decide +kernel)
  have hrun : (countedGroups.fuseChains [] 4).holds (fun s => s.2 == 5 &&
      s.1.order == [⟨0⟩, ⟨4⟩] && s.1.rows .ofSecondRow ⟨4⟩ ==
        [[some true, some false], [some false, some false]]) = true := by
    decide +kernel
  obtain ⟨⟨q, n⟩, hq, hresult⟩ := Result.holds_eq_true.mp hrun
  simp only [Bool.and_eq_true, beq_iff_eq] at hresult
  obtain ⟨⟨rfl, horder⟩, hrows⟩ := hresult
  exact ⟨q, hwf, by decide +kernel, hq, horder, by decide +kernel, hrows⟩

end Plan

end QueryPlan
