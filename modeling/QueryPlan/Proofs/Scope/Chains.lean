import QueryPlan.Proofs.Plan.Redirection
import QueryPlan.Proofs.Scope.Fusion
/-!
# QueryPlan.Proofs.Scope.Chains

**A compound in the place of a chain.** Nothing but the next node of a chain reads one of its
nodes, so the nodes before the last one may go once the readers of the last one read the compound
(`WellFormed.replaceChain`). The walk over the places of a plan builds chains as they are needed
there: its slots list the live order, and the place that it goes to holds the only reader of the
last node (`ChainWalk.Sound`).
-/

namespace QueryPlan

open List

namespace Plan

variable {p q : Plan} {id last input : NodeId} {ids joinRoots : List NodeId} {stage : ChainStage}

/-! ### Nodes of a chain -/

theorem Chained.subset (h : p.Chained joinRoots ids stage) : ids ⊆ p.order := by
  induction h with
  | nil => exact nil_subset _
  | next _ hid _ _ ih | close _ hid _ _ _ ih =>
      exact append_subset.mpr ⟨ih, cons_subset.mpr ⟨hid, nil_subset _⟩⟩

/-- A longer chain lists its nodes in the live order. -/
theorem pairwise_concat (h : p.Ordered p.order) (hpair : ids.Pairwise fun a b => [a, b] <+ p.order)
    (hid : id ∈ p.order) (hlink : ∀ last ∈ ids.getLast?, p.OnlyReader last id) :
    (ids ++ [id]).Pairwise fun a b => [a, b] <+ p.order := by
  rcases eq_nil_or_concat' ids with rfl | ⟨front, last, rfl⟩
  · exact pairwise_singleton _ _
  · have hlast : [last, id] <+ p.order :=
      h.before id hid last (hlink last (by simp)).1
    refine pairwise_append.mpr ⟨hpair, pairwise_singleton _ _, fun a ha b hb => ?_⟩
    rw [mem_singleton.mp hb]
    rcases mem_append.mp ha with ha | ha
    · exact pair_sublist_trans h.nodup
        ((pairwise_append.mp hpair).2.2 a ha last (mem_singleton_self _)) hlast
    · exact mem_singleton.mp ha ▸ hlast

/-- A chain lists its nodes in the live order. -/
theorem Chained.pairwise (h : p.Chained joinRoots ids stage) (hp : p.Ordered p.order) :
    ids.Pairwise fun a b => [a, b] <+ p.order := by
  induction h with
  | nil => exact .nil
  | next _ hid hlink _ ih | close _ hid hlink _ _ ih => exact pairwise_concat hp ih hid hlink

theorem Chained.nodup (h : p.Chained joinRoots ids stage) (hp : p.Ordered p.order) : ids.Nodup :=
  (h.pairwise hp).imp fun hpair => ne_of_pair hp.nodup hpair

/-- What reads a node before the last one of a chain is in the chain. -/
theorem Chained.reader_mem (h : p.Chained joinRoots ids stage) {x n : NodeId}
    (hx : x ∈ ids.dropLast) (hn : n ∈ p.order) (hread : x ∈ p.inputs n) : n ∈ ids := by
  induction h with
  | nil => exact absurd hx not_mem_nil
  | @next ids id _ _ _ _ hlink _ ih | @close ids id _ _ hlink _ _ ih =>
      rw [dropLast_concat] at hx
      rcases eq_nil_or_concat' ids with rfl | ⟨front, last, rfl⟩
      · exact absurd hx not_mem_nil
      · rcases mem_append.mp hx with hx | hx
        · exact mem_append_left _ (ih (by rwa [dropLast_concat]))
        · obtain rfl := mem_singleton.mp hx
          rw [(hlink x (by simp)).2 n hn hread]
          exact mem_append_right _ (mem_singleton_self _)

/-- The input of a chain stands before all of its nodes. -/
theorem Chained.input_before (h : p.Chained joinRoots ids stage) (hp : p.Ordered p.order)
    {first : NodeId} (hfirst : ids.head? = some first) (hinput : input ∈ p.inputs first) :
    ∀ x ∈ ids, [input, x] <+ p.order := by
  have hpair := hp.before first (h.subset (mem_of_head? hfirst)) input hinput
  obtain ⟨rest, rfl⟩ := head?_eq_some_iff.mp hfirst
  intro x hx
  rcases mem_cons.mp hx with rfl | hx
  · exact hpair
  · exact pair_sublist_trans hp.nodup hpair (rel_of_pairwise_cons (h.pairwise hp) hx)

/-- The nodes of a chain before the last one stand before it. -/
theorem Chained.not_mem_behind (h : p.Chained joinRoots ids stage) (hp : p.Ordered p.order)
    (hlast : ids.getLast? = some last) {pre post : List NodeId}
    (horder : p.order = pre ++ last :: post) : ∀ x ∈ post, x ∉ ids.dropLast := by
  intro x hx hmem
  have hnodup : (pre ++ last :: post).Nodup := horder ▸ hp.nodup
  have hpairs := h.pairwise hp
  rw [← dropLast_append_getLast? last hlast] at hpairs
  have hpair := (pairwise_append.mp hpairs).2.2 x hmem last (mem_singleton_self _)
  have hxpre := mem_left_of_pair (horder ▸ hpair) hnodup
  exact (nodup_append.mp hnodup).2.2 x hxpre x (mem_cons_of_mem _ hx) rfl

/-- What stays live when the compound of a chain takes the place of the last node. -/
def withoutChain (p : Plan) (ids pre post : List NodeId) : List NodeId :=
  (pre ++ p.nextId :: post).filter fun n => !ids.dropLast.contains n

/-- With the compound behind the last node, what stays live is what is not in the chain. -/
theorem Chained.withoutChain_eq (h : p.Chained joinRoots ids stage) (hp : p.Ordered p.order)
    (hlast : ids.getLast? = some last) {pre post : List NodeId}
    (horder : p.order = pre ++ last :: post) :
    p.withoutChain ids pre post =
      (pre ++ last :: p.nextId :: post).filter fun n => !ids.contains n := by
  have hids : ids = ids.dropLast ++ [last] := (dropLast_append_getLast? last hlast).symm
  have hlastMem : last ∈ ids := mem_of_getLast? hlast
  have hnodup : (pre ++ last :: post).Nodup := horder ▸ hp.nodup
  have hsame : ∀ x ∈ pre ++ p.nextId :: post,
      (!ids.dropLast.contains x) = !ids.contains x := by
    intro x hx
    have hxlast : x ≠ last := by
      rintro rfl
      rcases mem_middle_iff.mp hx with rfl | hx
      · exact ne_nextId (hp.inArena _ (h.subset hlastMem)) rfl
      · exact (nodup_cons.mp (nodup_middle.mp hnodup)).1 hx
    congr 1
    rw [Bool.eq_iff_iff, contains_iff_mem, contains_iff_mem, hids, mem_append, mem_singleton]
    simp [hxlast]
  rw [withoutChain, filter_congr hsame, filter_append, filter_append,
    filter_cons_of_neg (a := last)]
  simpa using hlastMem

/-- Once the readers of the last node of a chain read the compound, nothing outside of the chain
reads a node of the chain. -/
theorem Chained.not_mem_of_reads {r : Plan} {changed : List NodeId} {first n : NodeId}
    (h : p.Chained joinRoots ids stage) (hp : p.Ordered p.order)
    (hfirst : ids.head? = some first) (hlast : ids.getLast? = some last)
    (hinput : p.inputs first = [input]) (hr : Rewired r q last p.nextId none changed)
    (hnew : p.nextId ∉ changed ∧ r.inputs p.nextId = [input])
    (hold : ∀ x ∈ p.order, x ∉ ids → x ∈ changed ∧ r.inputs x = p.inputs x)
    (hn : n = p.nextId ∨ n ∈ p.order) (hnids : n ∉ ids) : ∀ i ∈ q.inputs n, i ∉ ids := by
  have hids : ids = ids.dropLast ++ [last] := (dropLast_append_getLast? last hlast).symm
  have hnewIds : p.nextId ∉ ids := fun hmem => ne_nextId (hp.inArena _ (h.subset hmem)) rfl
  intro i hi
  rcases hn with rfl | hlive
  · rw [hr.inputs_other hnew.1, hnew.2] at hi
    rw [mem_singleton.mp hi]
    exact fun hmem => ne_of_pair hp.nodup
      (h.input_before hp hfirst (hinput ▸ mem_singleton_self _) input hmem) rfl
  · obtain ⟨hchanged, hinputs⟩ := hold n hlive hnids
    rw [hr.inputs_eq hchanged, hinputs] at hi
    obtain ⟨x, hx, rfl⟩ := mem_map.mp hi
    by_cases hxlast : x = last
    · rwa [hxlast, NodeId.replaced_self]
    · rw [NodeId.replaced_of_ne _ hxlast]
      intro hmem
      rw [hids, mem_append, mem_singleton] at hmem
      exact hnids (h.reader_mem (hmem.resolve_right hxlast) hlive hx)

/-! ### Replacing a chain -/

theorem foldl_remove (p : Plan) (ids : List NodeId) :
    ids.foldl remove p = { p with order := p.order.filter fun n => !ids.contains n } := by
  induction ids generalizing p with
  | nil => simp
  | cons id ids ih =>
      rw [foldl_cons, ih, remove]
      congr 1
      rw [filter_filter]
      refine filter_congr fun n _ => ?_
      rw [contains_cons, Bool.not_or, Bool.and_comm]
      rfl

theorem replaceChain_eq_ok {next next' : Nat} {first : NodeId}
    (h : p.replaceChain ids first last next = .ok (q, next')) :
    ∃ f input buildId pre post, ids.foldlM p.fuseNode .start = .ok f ∧
      p.inputs first = [input] ∧ p.order = pre ++ last :: post ∧
      ({ p.alloc (.make buildId [input] (.compound f.compound)) with
          order := (pre ++ p.nextId :: post).filter fun n => !ids.dropLast.contains n } :
        Plan).replaceInputEverywhere last p.nextId none = .ok q := by
  obtain ⟨compound, n, hcompound, h⟩ := Fresh.bind_eq_ok.mp h
  obtain ⟨f, hf, hcompound⟩ := Result.bind_eq_ok.mp (Fresh.lift_eq_ok.mp hcompound).1
  obtain rfl := Result.pure_eq_ok.mp hcompound
  obtain ⟨input, n, hinput, h⟩ := Fresh.bind_eq_ok.mp h
  obtain ⟨buildId, n, -, h⟩ := Fresh.bind_eq_ok.mp h
  obtain ⟨r, n, hr, h⟩ := Fresh.bind_eq_ok.mp h
  obtain ⟨pre, post, horder, rfl⟩ := replaceInOrder_eq_ok (Fresh.lift_eq_ok.mp hr).1
  refine ⟨f, input, buildId, pre, post, hf,
    Node.singleInput_eq_ok.mp (Fresh.lift_eq_ok.mp hinput).1, horder, ?_⟩
  rw [foldl_remove] at h
  exact (Fresh.lift_eq_ok.mp h).1

/-- A compound in the place of the last node of a chain stands behind its input, and nothing reads
what goes. -/
theorem Ordered.replaceChain {next next' : Nat} {first : NodeId} (h : p.Ordered p.order)
    (hchain : p.Chained joinRoots ids stage) (hfirst : ids.head? = some first)
    (hlast : ids.getLast? = some last)
    (hq : p.replaceChain ids first last next = .ok (q, next')) :
    q.Ordered q.order ∧ ∃ pre post, p.order = pre ++ last :: post ∧
      q.order = p.withoutChain ids pre post := by
  obtain ⟨f, input, buildId, pre, post, -, hinput, horder, hq⟩ := replaceChain_eq_ok hq
  generalize hnode : Node.make buildId [input] (.compound f.compound) = node at hq
  have hlastMem : last ∈ ids := mem_of_getLast? hlast
  have hinputPre : input ∈ pre := mem_left_of_pair
    (horder ▸ hchain.input_before h hfirst (hinput ▸ mem_singleton_self _) last hlastMem)
    (horder ▸ h.nodup)
  have hsplit : p.order = (pre ++ [last]) ++ post := by simp [horder]
  have hnew := h.insert_live hsplit (n := node) (by simp [← hnode, Node.make, hinputPre])
  rw [append_assoc, singleton_append] at hnew
  have hstays := hchain.withoutChain_eq h hlast horder
  have hsub : p.withoutChain ids pre post <+ pre ++ last :: p.nextId :: post :=
    hstays ▸ filter_sublist
  generalize hr : ({ p.alloc node with order := p.withoutChain ids pre post } : Plan) = r
  have hlive : r.order = p.withoutChain ids pre post := by rw [← hr]
  have hrNode : r.node = (p.alloc node).node := by rw [← hr]; rfl
  have hrOrdered : r.Ordered (pre ++ last :: p.nextId :: post) :=
    hnew.congr (by rw [← hr]) fun x _ => by rw [inputs, hrNode]; rfl
  have hq : r.replaceInputEverywhere last p.nextId none = .ok q := by rw [← hr]; exact hq
  have hred := replaceInputEverywhere_rewired hq (hlive ▸ hnew.nodup.sublist hsub) fun n hn =>
    hrOrdered.inArena n (hsub.subset (hlive ▸ hn))
  rw [hlive] at hred
  have hqOrdered : q.Ordered (pre ++ last :: p.nextId :: post) :=
    hred.ordered hrOrdered fun n hn hn' hread =>
      (pair_next hrOrdered.nodup rfl (hrOrdered.before n hn' last hread)
        (by simpa using (mem_filter.mp hn).2)).2
  have hqOrder : q.order = p.withoutChain ids pre post := hred.order_eq.trans hlive
  refine ⟨?_, pre, post, horder, hqOrder⟩
  rw [hqOrder, hstays]
  refine hqOrdered.filter fun n hn hkeep i hi => ?_
  rw [Bool.not_eq_true', ← Bool.not_eq_true, contains_iff_mem] at hkeep ⊢
  have hmem : ∀ n, n ∈ pre ++ last :: p.nextId :: post ↔ n = p.nextId ∨ n ∈ p.order := fun n => by
    rw [append_cons, mem_middle_iff, append_assoc, singleton_append, ← horder]
  refine hchain.not_mem_of_reads h hfirst hlast hinput hred ⟨by simp, ?_⟩
    (fun x hx hxids => ⟨?_, ?_⟩) ((hmem n).mp hn) hkeep i hi
  · rw [inputs, hrNode, node_alloc_self, ← hnode]
    rfl
  · have hxnew : x ≠ p.nextId := ne_nextId (h.inArena x hx)
    rw [hstays]
    simp only [mem_filter, (hmem x).mpr (.inr hx), true_and, bne_iff_ne]
    exact ⟨by simpa using hxids, hxnew⟩
  · rw [inputs, hrNode, node_alloc_of_ne _ (ne_nextId (h.inArena x hx))]
    rfl

theorem standIns_withOrder (p : Plan) (order : List NodeId) (n old new : NodeId) :
    ({ p with order := order } : Plan).standIns n old new = p.standIns n old new := by
  have hshape : SameShape p { p with order := order } := .of_arena_eq rfl
  rw [standIns, standIns, columnsOf, columnsOf, hshape.columnCount_eq, hshape.isJoin_eq,
    hshape.inputs_eq, hshape.exposed_eq]

/-- A redirection does not depend on what is live. -/
theorem Redirection.withOrder {old new : NodeId} {mapping : Option ColumnMap}
    {changed : List NodeId} (h : Redirection p q old new mapping changed) (order : List NodeId) :
    Redirection { p with order := order } { q with order := order } old new mapping changed where
  order_eq := rfl
  size_eq := h.size_eq
  node_other := h.node_other
  node_eq n hn := by
    rw [standIns_withOrder]
    exact h.node_eq n hn
  found n hn := by
    rw [standIns_withOrder]
    exact h.found n hn

/-- A chain of two nodes or more has a compound that computes the columns of its last node. -/
theorem Chained.computes {f : Fusion} {first : NodeId} (h : p.Chained joinRoots ids stage)
    (hp : p.WellFormed) (hlength : 2 ≤ ids.length) (hfirst : ids.head? = some first)
    (hinput : p.inputs first = [input]) (hlast : ids.getLast? = some last)
    (hf : ids.foldlM p.fuseNode .start = .ok f) : f.Computes p input last := by
  have htaken : f.Taken p input ids stage := h.taken hp (fun x hx => by
    rw [hfirst] at hx
    exact Option.some.inj hx ▸ hinput) hf
  cases stage with
  | start =>
      obtain ⟨rfl, -⟩ := htaken
      cases hfirst
  | filtered =>
      obtain ⟨⟨id, c, rfl, -⟩, -⟩ := htaken
      exact absurd hlength (by simp)
  | projected | grouped =>
      obtain ⟨last', hlast', hcomputes⟩ := htaken
      rw [hlast] at hlast'
      exact Option.some.inj hlast' ▸ hcomputes

/-- A compound may stand right behind the node whose columns it computes. -/
theorem WellFormed.insert_compound {f : Fusion} {pre post : List NodeId} (h : p.WellFormed)
    (horder : p.order = pre ++ last :: post) (hinput : input ∈ pre)
    (hf : f.Computes p input last) (buildId : Nat) :
    ({ p.alloc (.make buildId [input] (.compound f.compound)) with
        order := pre ++ last :: p.nextId :: post } : Plan).WellFormed := by
  have hsplit : p.order = (pre ++ [last]) ++ post := by simp [horder]
  have hwf := h.insert (h.arranged.toOrdered.inserted
      (.make buildId [input] (.compound f.compound)) hsplit) rfl
    (fun i hi => mem_append_left _ (mem_singleton.mp hi ▸ hinput))
    (hf.fields h (by simp [horder]))
    (fun e he => hasPositional_of_inSight (hf.sees e he)) fun c hc => by
      obtain ⟨e, he, hc⟩ := Operator.mem_columns.mp hc
      simpa [Node.make, Operator.isJoin] using column_of_inSight (hf.sees e he) hc
  simpa using hwf

/-- What reads a node may read the next one instead, if this is as wide, whatever else is live. -/
theorem WellFormed.redirection_to_next {old new : NodeId} {pre post live : List NodeId}
    (h : p.WellFormed) (horder : p.order = pre ++ old :: new :: post)
    (hold : (p.op old).isJoin = false) (hnew : (p.op new).isJoin = false)
    (hcount : p.columnCount new = p.columnCount old) (hlive : live <+ p.order)
    (hpost : post ⊆ live)
    (hq : ({ p with order := live } : Plan).replaceInputEverywhere old new none = .ok q) :
    Redirection p { q with order := p.order } old new none (live.filter fun n => n != new) ∧
      ({ q with order := p.order } : Plan).WellFormed ∧ q.order = live := by
  have hshape : SameShape p { p with order := live } := .of_arena_eq rfl
  have hlocal := ((horder ▸ h.arranged).of_sameShape hshape).redirection_to_next hq
    (h.nodup.sublist hlive) fun n hn => h.inArena (hlive.subset hn)
  have hred := hlocal.withOrder p.order
  change Redirection p { q with order := p.order } old new none _ at hred
  have hsub : (live.filter fun n => n != new) ⊆ p.order := fun n hn =>
    hlive.subset (mem_filter.mp hn).1
  have harranged := hred.arranged h.arranged fun n hn hread =>
    (pair_next h.nodup horder (h.arranged.before n (hsub hn) old hread)
      (by simpa using (mem_filter.mp hn).2)).2
  have hqCount := hred.columnCount_of_eq h.arranged harranged hcount
  have hnewLive : new ∈ p.order := by rw [horder]; simp
  refine ⟨hred, hred.wellFormed_next h horder hold hnew hsub (by simp) (fun n hn => ?_)
    (hqCount new hnewLive) fun n hn c hc _ => ?_, hlocal.order_eq⟩
  · refine mem_filter.mpr ⟨hpost hn, ?_⟩
    rw [bne_iff_ne]
    rintro rfl
    have hnodup := h.nodup
    rw [horder, append_cons] at hnodup
    exact (nodup_cons.mp (nodup_append.mp hnodup).2.1).1 hn
  · obtain ⟨hread, hlt⟩ := h.reads_of_mem hn hc
    rwa [hqCount _ (h.arranged.reads_subset hn hread)]

/-- A plan with a new node right behind another one, which has the columns of that node. -/
structure Doubled (p r : Plan) (input last : NodeId) (pre post : List NodeId) : Prop where
  wellFormed : r.WellFormed
  size_le : p.arena.size ≤ r.arena.size
  order_before : p.order = pre ++ last :: post
  order_eq : r.order = pre ++ last :: p.nextId :: post
  node_eq : ∀ x ∈ p.order, r.node x = p.node x
  inputs_new : r.inputs p.nextId = [input]
  op_new : ∃ c, r.op p.nextId = .compound c
  count : r.columnCount p.nextId = r.columnCount last
  names : r.columnNames p.nextId = r.columnNames last

theorem Doubled.isJoin_new {r : Plan} {pre post : List NodeId} (f : p.Doubled r input last pre post) :
    (r.op p.nextId).isJoin = false := by
  obtain ⟨c, hop⟩ := f.op_new
  rw [hop]
  rfl

/-- The compound of a chain has the columns of the last node. -/
theorem WellFormed.doubled {f : Fusion} {first : NodeId} {pre post : List NodeId} (h : p.WellFormed)
    (hchain : p.Chained joinRoots ids stage) (hlength : 2 ≤ ids.length)
    (hfirst : ids.head? = some first) (hinput : p.inputs first = [input])
    (hlast : ids.getLast? = some last) (hf : ids.foldlM p.fuseNode .start = .ok f)
    (horder : p.order = pre ++ last :: post) (buildId : Nat) :
    p.Doubled { p.alloc (.make buildId [input] (.compound f.compound)) with
      order := pre ++ last :: p.nextId :: post } input last pre post := by
  have hcomputes := hchain.computes h hlength hfirst hinput hlast hf
  have hlastMem : last ∈ ids := mem_of_getLast? hlast
  have hlastLive := hchain.subset hlastMem
  have hinputPair := hchain.input_before h.arranged.toOrdered hfirst (hinput ▸ mem_singleton_self _)
  have hinputPre := mem_left_of_pair (horder ▸ hinputPair last hlastMem) (horder ▸ h.nodup)
  have hr := h.insert_compound horder hinputPre hcomputes buildId
  generalize hnode : Node.make buildId [input] (.compound f.compound) = node at hr ⊢
  generalize hrDef : ({ p.alloc node with order := pre ++ last :: p.nextId :: post } : Plan) = r
    at hr ⊢
  have hrOrder : r.order = pre ++ last :: p.nextId :: post := by rw [← hrDef]
  have hrNew : r.node p.nextId = node := by
    rw [← hrDef]
    exact node_alloc_self node
  have hop : r.op p.nextId = .compound f.compound := by
    rw [Plan.op, hrNew, ← hnode]
    rfl
  have hnewLive : p.nextId ∈ r.order := by rw [hrOrder]; simp
  have hlayout : (r.op p.nextId).layout =
      .own f.compound.targets.length f.compound.fields := by
    rw [hop]
    rfl
  have hshape : SameShape (p.alloc node) r := .of_arena_eq (by rw [← hrDef])
  refine ⟨hr, ?_, horder, hrOrder, fun x hx => ?_, ?_, ⟨_, hop⟩, ?_, ?_⟩
  · rw [← hrDef]
    exact Nat.le_of_lt (by simp)
  · rw [← hrDef]
    exact node_alloc_of_ne _ (ne_nextId (h.inArena hx))
  · rw [inputs, hrNew, ← hnode]
    rfl
  · rw [hr.arranged.columnCount_of_own hnewLive hlayout, hcomputes.width, hshape.columnCount_eq,
      h.arranged.columnCount_alloc node last hlastLive]
  · rw [hr.arranged.columnNames_of_own hnewLive hlayout, hcomputes.names, hshape.columnNames_eq,
      h.arranged.columnNames_alloc node last hlastLive]

/-- The loop lets the readers of the last node of a chain read the compound. -/
theorem WellFormed.doubled_of_replaceChain {next next' : Nat} {first : NodeId} (h : p.WellFormed)
    (hchain : p.Chained joinRoots ids stage) (hlength : 2 ≤ ids.length)
    (hfirst : ids.head? = some first) (hlast : ids.getLast? = some last)
    (hq : p.replaceChain ids first last next = .ok (q, next')) :
    ∃ r input pre post, p.inputs first = [input] ∧ p.Doubled r input last pre post ∧
      ({ r with order := p.withoutChain ids pre post } : Plan).replaceInputEverywhere
        last p.nextId none = .ok q := by
  obtain ⟨f, input, buildId, pre, post, hf, hinput, horder, hq⟩ := replaceChain_eq_ok hq
  exact ⟨_, input, pre, post, hinput,
    h.doubled hchain hlength hfirst hinput hlast hf horder buildId, hq⟩

/-- What reads the last node of a chain reads the compound, and the chain leaves the order. -/
theorem WellFormed.redirection_of_replaceChain {next next' : Nat} {first : NodeId}
    (h : p.WellFormed) (hchain : p.Chained joinRoots ids stage) (hlength : 2 ≤ ids.length)
    (hfirst : ids.head? = some first) (hlast : ids.getLast? = some last)
    (hq : p.replaceChain ids first last next = .ok (q, next')) :
    ∃ r input pre post, p.inputs first = [input] ∧ p.Doubled r input last pre post ∧
      q.order = p.withoutChain ids pre post ∧
      p.withoutChain ids pre post = r.order.filter (fun n => !ids.contains n) ∧
      ({ q with order := r.order } : Plan).WellFormed ∧
      Redirection r { q with order := r.order } last p.nextId none
        ((p.withoutChain ids pre post).filter fun n => n != p.nextId) := by
  obtain ⟨r, input, pre, post, hinput, hr, hqr⟩ :=
    h.doubled_of_replaceChain hchain hlength hfirst hlast hq
  have hlastMem : last ∈ ids := mem_of_getLast? hlast
  have hlastLive := hchain.subset hlastMem
  have hstays : p.withoutChain ids pre post = r.order.filter fun n => !ids.contains n := by
    rw [hr.order_eq]
    exact hchain.withoutChain_eq h.arranged.toOrdered hlast hr.order_before
  have hsub : p.withoutChain ids pre post <+ r.order := hstays ▸ filter_sublist
  obtain ⟨hred, hwf, hqOrder⟩ := hr.wellFormed.redirection_to_next hr.order_eq
    (by rw [Plan.op, hr.node_eq last hlastLive]; exact (hchain.unary last hlastMem).2)
    hr.isJoin_new hr.count hsub
    (fun x hx => mem_filter.mpr ⟨mem_append_right _ (mem_cons_of_mem _ hx), by
      simpa using hchain.not_mem_behind h.arranged.toOrdered hlast hr.order_before x hx⟩) hqr
  exact ⟨r, input, pre, post, hinput, hr, hqOrder, hstays, hwf, hred⟩

/-- A compound takes the place of the last node of a chain, and the others go. -/
theorem WellFormed.replaceChain {next next' : Nat} {first : NodeId} (h : p.WellFormed)
    (hchain : p.Chained joinRoots ids stage) (hlength : 2 ≤ ids.length)
    (hfirst : ids.head? = some first) (hlast : ids.getLast? = some last)
    (hq : p.replaceChain ids first last next = .ok (q, next')) : q.WellFormed := by
  obtain ⟨r, input, pre, post, hinput, hr, hqOrder, hstays, hwf, hred⟩ :=
    h.redirection_of_replaceChain hchain hlength hfirst hlast hq
  have hnewIds : p.nextId ∉ ids := fun hmem => ne_nextId (h.inArena (hchain.subset hmem)) rfl
  have hmem : ∀ n, n ∈ r.order ↔ n = p.nextId ∨ n ∈ p.order := fun n => by
    rw [hr.order_eq, append_cons, mem_middle_iff, append_assoc, singleton_append,
      ← hr.order_before]
  have hfilter : ({ q with order := r.order.filter fun n => !ids.contains n } : Plan).WellFormed := by
    refine hwf.filter fun n hn hkeep i hi => ?_
    rw [Bool.not_eq_true', ← Bool.not_eq_true, contains_iff_mem] at hkeep ⊢
    refine hchain.not_mem_of_reads h.arranged.toOrdered hfirst hlast hinput hred.toRewired
      ⟨by simp, hr.inputs_new⟩ (fun x hx hxids => ⟨?_, ?_⟩) ((hmem n).mp hn) hkeep i hi
    · have hxnew : x ≠ p.nextId := ne_nextId (h.inArena hx)
      rw [hstays]
      simp [(hmem x).mpr (.inr hx), hxids, hxnew]
    · rw [inputs, hr.node_eq x hx]
      rfl
  rwa [← hstays, ← hqOrder] at hfilter

end Plan

end QueryPlan
