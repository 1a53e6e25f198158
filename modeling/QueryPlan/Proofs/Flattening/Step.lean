import QueryPlan.Proofs.Flattening.Retirement
/-!
# QueryPlan.Proofs.Flattening.Step

**One chain becomes one node.** What is flattened reads the leftmost relation and the right inputs
of the joins, and none of these belongs to the chain (`JoinChain.right_not_mem`). So flattening is a
new node in the place of the top of the chain (`Plan.NewNode`), the redirection of what reads the
top (`Plan.Takeover`), and the retirement of the rest of the chain (`Plan.Flattening`), and the live
order lists every node behind its inputs again (`Flattening.ordered`).
-/

namespace QueryPlan

open List

namespace Plan

variable {p q r : Plan} {root : NodeId}

section

variable {top left leftmost x : NodeId} {joins : List NodeId}

/-! ### Inputs of a flattened chain -/

theorem input_eq_ok {place : Nat} :
    (p.node x).input place = .ok left ↔ (p.inputs x)[place]? = some left :=
  Result.ofOption_eq_ok

/-- The right inputs of the joins of a chain do not belong to the chain. -/
theorem JoinChain.right_not_mem (h : p.JoinChain top joins leftmost) (hp : p.Ordered p.order)
    (htop : top ∈ p.order) {right : NodeId} :
    ∀ j ∈ joins, (p.inputs j)[1]? = some right → right ∉ joins := by
  induction h with
  | single _ =>
      intro j hj hright hmem
      rw [mem_singleton.mp hj] at hright
      rw [mem_singleton.mp hmem] at hright
      exact hp.not_mem_inputs_self htop (mem_of_getElem? hright)
  | @more top left leftmost below hleft hjoin huse hbelow ih =>
      have hread := mem_of_head? hleft
      have hpair := hp.before top htop left hread
      have hlist := (JoinChain.more hleft hjoin huse hbelow).pairwise hp htop
      intro j hj hright hmem
      have hbefore := hp.before j ((JoinChain.more hleft hjoin huse hbelow).subset hp htop hj)
        right (mem_of_getElem? hright)
      rcases mem_cons.mp hj with rfl | hj
      · rcases mem_cons.mp hmem with rfl | hmem
        · exact ne_of_pair hp.nodup hbefore rfl
        -- The only place where something reads the next join is a left input.
        obtain ⟨rest, rfl⟩ := hbelow.exists_cons
        rcases mem_cons.mp hmem with rfl | hmem
        · have hcount := count_inputs_of_useCount huse htop hread
          obtain ⟨a, as, hinputs⟩ := exists_cons_of_ne_nil (ne_nil_of_mem hread)
          rw [hinputs] at hleft hright hcount
          cases hleft
          rw [count_cons_self, Nat.add_eq_right, count_eq_zero] at hcount
          exact hcount (mem_of_getElem? hright)
        · obtain ⟨done, behind, rfl⟩ := append_of_mem hmem
          have hmemBelow := (hbelow.retiring hp (mem_left hpair)).mem_of_reads htop
            (mem_of_getElem? hright)
          rw [← cons_append] at hlist
          exact ne_of_pair hp.nodup (rel_of_pairwise_cons hlist (mem_append_left _ hmemBelow)) rfl
      · rcases mem_cons.mp hmem with htopmost | hmem
        · exact not_pair_swap hp.nodup hbefore (htopmost ▸ rel_of_pairwise_cons hlist hj)
        · exact ih (mem_left hpair) j hj hright hmem

/-- A level reads the right input of its join. -/
theorem addLevel_eq_ok {levels levels' : ChainLevels} (h : p.addLevel levels x = .ok levels') :
    (p.isBinaryJoin x = false ∧ levels' = levels) ∨
    ∃ j right, p.op x = .join j ∧ (p.inputs x)[1]? = some right ∧
      levels' = levels.push right j := by
  unfold addLevel isBinaryJoin at *
  cases hop : p.op x with
  | join j =>
      rw [hop] at h
      obtain ⟨right, hright, h⟩ := Result.bind_eq_ok.mp h
      exact .inr ⟨j, right, rfl, input_eq_ok.mp hright, (Result.pure_eq_ok.mp h).symm⟩
  | _ =>
      rw [hop] at h
      exact .inl ⟨rfl, (Except.ok.inj h).symm⟩

/-- The inputs of the levels are right inputs of joins of the chain. -/
theorem right_of_mem_levels {nodes : List NodeId} {levels : ChainLevels}
    (h : nodes.foldlM p.addLevel .none = .ok levels) :
    ∀ right ∈ levels.inputs, ∃ j ∈ nodes, (p.inputs j)[1]? = some right := by
  refine Result.foldlM_keeps (motive := fun l : ChainLevels =>
    ∀ right ∈ l.inputs, ∃ j ∈ nodes, (p.inputs j)[1]? = some right) h nofun ?_
  intro x hx l l' hl hstep
  rcases addLevel_eq_ok hstep with ⟨-, rfl⟩ | ⟨j, right, -, hright, rfl⟩
  · exact hl
  · intro y hy
    rcases mem_append.mp hy with hy | hy
    · exact hl y hy
    · rw [mem_singleton.mp hy]
      exact ⟨x, hx, hright⟩

/-- The conjuncts that a flattened chain collects. -/
def chainConjuncts (p : Plan) (filter : Option NodeId) (levels : ChainLevels) : List Expr :=
  levels.conjuncts ++ filter.toList.flatMap p.filterConjuncts

/-- What stands for a chain comes from its levels. -/
theorem flattenChain_eq_ok {filter : Option NodeId} {inputs : List NodeId} {op : LeftDeepJoin}
    (h : p.flattenChain filter joins leftmost = .ok (inputs, op)) :
    ∃ levels columns, joins.reverse.foldlM p.addLevel .none = .ok levels ∧
      inputs = leftmost :: levels.inputs ∧ p.flattenedColumns inputs = .ok columns ∧
      resolveChain joins columns ((Expr.all? ((p.chainConjuncts filter levels).filter
        fun e => !e.isTrue)).getD (Expr.bool true)) = .ok op.condition ∧
      levels.outer.mapM (fun e => e.mapM (resolveChain joins columns)) = .ok op.outer ∧
      op.kinds = levels.kinds := by
  obtain ⟨levels, hlevels, h⟩ := Result.bind_eq_ok.mp h
  obtain ⟨columns, hcolumns, h⟩ := Result.bind_eq_ok.mp h
  obtain ⟨condition, hcondition, h⟩ := Result.bind_eq_ok.mp h
  obtain ⟨outer, houter, h⟩ := Result.bind_eq_ok.mp h
  cases Result.pure_eq_ok.mp h
  exact ⟨levels, columns, hlevels, rfl, hcolumns, hcondition, houter, rfl⟩

/-- The inputs of what stands for a chain stand before all of it. -/
theorem ChainAt.inputs_before {filter : Option NodeId} {topJoin : NodeId}
    (h : p.ChainAt root filter topJoin joins leftmost) (hp : p.Ordered p.order)
    (hroot : root ∈ p.order) {inputs : List NodeId} {op : LeftDeepJoin}
    (hop : p.flattenChain filter joins leftmost = .ok (inputs, op)) :
    ∀ i ∈ inputs, i ∉ filter.toList ++ joins ∧ [i, filter.getD topJoin] <+ p.order := by
  obtain ⟨levels, -, hlevels, rfl, -⟩ := flattenChain_eq_ok hop
  obtain ⟨below, holds⟩ := h.exists_cons
  have hlist := h.pairwise hp hroot
  have hhead : filter.getD topJoin ∈ filter.toList ++ joins := holds ▸ mem_cons_self
  intro i hi
  rcases mem_cons.mp hi with rfl | hi
  · have hbefore := h.leftmost_before hp hroot
    exact ⟨fun hmem => ne_of_pair hp.nodup (hbefore i hmem) rfl, hbefore _ hhead⟩
  obtain ⟨j, hj, hright⟩ := right_of_mem_levels hlevels i hi
  have hj := mem_reverse.mp hj
  have hmem : j ∈ filter.toList ++ joins := mem_append_right _ hj
  have hpair := hp.before j (h.subset hp hroot hmem) i (mem_of_getElem? hright)
  refine ⟨fun hold => ?_, ?_⟩
  · rcases mem_append.mp hold with hfilter | hold
    · exact not_pair_swap hp.nodup hpair ((pairwise_append.mp hlist).2.2 i hfilter j hj)
    · exact h.chain.right_not_mem hp (h.topJoin_mem hp hroot) j hj hright hold
  · rw [holds] at hmem hlist
    rcases mem_cons.mp hmem with rfl | hmem
    · exact hpair
    · exact pair_sublist_trans hp.nodup hpair (rel_of_pairwise_cons hlist hmem)

/-- What reads a node of a chain below the top is among the nodes between them. -/
theorem ChainAt.mem_of_reads {filter : Option NodeId} {topJoin : NodeId}
    (h : p.ChainAt root filter topJoin joins leftmost) (hp : p.Ordered p.order)
    (hroot : root ∈ p.order) {done rest : List NodeId} {n o : NodeId}
    (holds : filter.toList ++ joins = top :: (done ++ o :: rest)) (hn : n ∈ p.order)
    (hne : n ≠ top) (hread : o ∈ p.inputs n) : n ∈ done := by
  have hretiring := h.retiring hp hroot
  rw [holds] at hretiring
  exact (mem_cons.mp (hretiring.mem_of_reads hn hread)).resolve_left hne

end

/-! ### Flattening in three parts -/

/-- A new node stands in the place of the top of a chain, and nothing reads it yet. References to
lower joins of the chain have been moved to the topmost one. -/
structure NewNode (p : Plan) (root : NodeId) where
  filter : Option NodeId
  topJoin : NodeId
  joins : List NodeId
  leftmost : NodeId
  inputs : List NodeId
  op : LeftDeepJoin
  buildId : Nat
  pre : List NodeId
  post : List NodeId
  /-- What leaves besides the top. -/
  below : List NodeId
  /-- The plan with the new node. -/
  moved : Plan
  chain : p.ChainAt root filter topJoin joins leftmost
  flattenChain_eq : p.flattenChain filter joins leftmost = .ok (inputs, op)
  olds_eq : filter.toList ++ joins = filter.getD topJoin :: below
  order_eq : p.order = pre ++ filter.getD topJoin :: post
  shape : SameShape (p.alloc (.make buildId inputs (.leftDeepJoin op))) moved
  order_moved : moved.order = pre ++ p.nextId :: post
  node_moved : ∀ x, moved.node x = if x ∈ pre ++ post then { p.node x with
      op := (p.op x).mapExprs (Expr.mapColumns (redirectedColumn joins.tail topJoin)) }
    else (p.alloc (.make buildId inputs (.leftDeepJoin op))).node x

/-- What read the top of a chain reads the new node. -/
structure Takeover (p : Plan) (root : NodeId) extends NewNode p root where
  /-- The plan in which nothing reads the top any more. -/
  rewired : Plan
  redirect_eq : moved.replaceInputEverywhere (filter.getD topJoin) p.nextId none = .ok rewired
  rewires : Rewired moved rewired (filter.getD topJoin) p.nextId none
    (moved.order.filter fun n => n != p.nextId)

/-- A new node has taken the place of a chain, and the rest of the chain has left. -/
structure Flattening (p : Plan) (root : NodeId) (q : Plan) extends Takeover p root where
  retires : Retires rewired q p.nextId below

namespace NewNode

variable (f : NewNode p root) {n o : NodeId}

/-- The node whose place is taken. -/
def top : NodeId := f.filter.getD f.topJoin

/-- The new node. -/
def node : Node := .make f.buildId f.inputs (.leftDeepJoin f.op)

theorem order_eq_top : p.order = f.pre ++ f.top :: f.post := f.order_eq

theorem mem_order : n ∈ p.order ↔ n = f.top ∨ n ∈ f.pre ++ f.post := by
  rw [f.order_eq_top, mem_middle_iff]

section

variable (hp : p.Ordered p.order)
include f hp

theorem nodup : (f.pre ++ f.top :: f.post).Nodup := f.order_eq_top ▸ hp.nodup

theorem top_not_mem : f.top ∉ f.pre ++ f.post :=
  (nodup_cons.mp (nodup_middle.mp (f.nodup hp))).1

theorem ne_nextId (hn : n ∈ f.pre ++ f.post) : n ≠ p.nextId :=
  Plan.ne_nextId (hp.inArena n (f.mem_order.mpr (.inr hn)))

theorem inputs_moved (hn : n ∈ f.pre ++ f.post) : f.moved.inputs n = p.inputs n := by
  rw [f.shape.inputs_eq]
  exact inputs_congr (node_alloc_of_ne _ (f.ne_nextId hp hn))

theorem mem_changed :
    n ∈ (f.moved.order.filter fun n => n != p.nextId) ↔ n ∈ f.pre ++ f.post := by
  rw [mem_filter, f.order_moved, mem_middle_iff, bne_iff_ne]
  exact ⟨fun h => h.1.resolve_left h.2, fun h => ⟨.inr h, f.ne_nextId hp h⟩⟩

theorem node_nextId : f.moved.node p.nextId = f.node := by
  rw [f.node_moved, if_neg fun hmem => f.ne_nextId hp hmem rfl, node_alloc_self]
  rfl

theorem nodup_moved : f.moved.order.Nodup := by
  rw [f.order_moved, nodup_middle, nodup_cons]
  exact ⟨fun hmem => f.ne_nextId hp hmem rfl, (nodup_cons.mp (nodup_middle.mp (f.nodup hp))).2⟩

theorem inArena_moved : ∀ n ∈ f.moved.order, n.index < f.moved.arena.size := by
  intro n hn
  rw [f.order_moved] at hn
  rw [f.shape.size_eq, size_alloc]
  rcases mem_middle_iff.mp hn with rfl | hn
  · exact Nat.lt_succ_self _
  · exact Nat.lt_succ_of_lt (hp.inArena n (f.mem_order.mpr (.inr hn)))

variable (hroot : root ∈ p.order)
include hroot

theorem below_before (ho : o ∈ f.below) : o ∈ f.pre := by
  have hlist := f.chain.pairwise hp hroot
  rw [f.olds_eq] at hlist
  exact mem_left_of_pair (f.order_eq ▸ rel_of_pairwise_cons hlist ho) (f.nodup hp)

theorem top_not_mem_below : f.top ∉ f.below := fun hmem =>
  f.top_not_mem hp (mem_append_left _ (f.below_before hp hroot hmem))

theorem nextId_not_mem_below : p.nextId ∉ f.below := fun hmem =>
  f.ne_nextId hp (mem_append_left _ (f.below_before hp hroot hmem)) rfl

/-- The inputs of the new node stand before the chain. -/
theorem inputs_before (hn : n ∈ f.inputs) : n ∈ f.pre ∧ n ∉ f.below := by
  obtain ⟨hnot, hpair⟩ := f.chain.inputs_before hp hroot f.flattenChain_eq n hn
  rw [f.olds_eq] at hnot
  exact ⟨mem_left_of_pair (f.order_eq ▸ hpair) (f.nodup hp),
    fun h => hnot (mem_cons_of_mem _ h)⟩

/-- What reads a node of the chain below the top is among the nodes between them. -/
theorem mem_of_reads {done rest : List NodeId} (hsplit : f.below = done ++ o :: rest)
    (hn : n ∈ f.pre ++ f.post) (hread : o ∈ p.inputs n) : n ∈ done := by
  have holds := f.olds_eq
  rw [hsplit] at holds
  have hne : n ≠ f.top := fun htop => f.top_not_mem hp (htop ▸ hn)
  exact f.chain.mem_of_reads hp hroot holds (f.mem_order.mpr (.inr hn)) hne hread

/-- What reads a node that leaves leaves as well. -/
theorem mem_below_of_reads (hn : n ∈ f.pre ++ f.post) (ho : o ∈ f.below)
    (hread : o ∈ p.inputs n) : n ∈ f.below := by
  obtain ⟨done, rest, hsplit⟩ := append_of_mem ho
  exact hsplit ▸ mem_append_left _ (f.mem_of_reads hp hroot hsplit hn hread)

/-- The new node may stand behind the top. -/
theorem ordered_alloc : (p.alloc f.node).Ordered (f.pre ++ f.top :: p.nextId :: f.post) := by
  have hlist : p.Ordered ((f.pre ++ [f.top]) ++ f.post) := by
    rw [append_assoc, singleton_append, ← f.order_eq_top]
    exact hp
  have hnew := hlist.insert (n := f.node) fun i hi =>
    mem_append_left _ (f.inputs_before hp hroot hi).1
  rwa [append_assoc, singleton_append] at hnew

theorem ordered_moved : f.moved.Ordered (f.pre ++ f.top :: p.nextId :: f.post) :=
  (f.ordered_alloc hp hroot).congr (Nat.le_of_eq f.shape.size_eq.symm)
    fun n _ => f.shape.inputs_eq n

end

end NewNode

/-- A new node for a chain, and references that are moved inside of the chain. -/
def Ordered.newNode (hp : p.Ordered p.order) {filter : Option NodeId} {topJoin leftmost : NodeId}
    {joins inputs below pre post : List NodeId} {op : LeftDeepJoin} (buildId : Nat)
    (hchain : p.ChainAt root filter topJoin joins leftmost)
    (hop : p.flattenChain filter joins leftmost = .ok (inputs, op))
    (holds : filter.toList ++ joins = filter.getD topJoin :: below)
    (horder : p.order = pre ++ filter.getD topJoin :: post) : NewNode p root :=
  let node := Node.make buildId inputs (.leftDeepJoin op)
  let placed : Plan := { p.alloc node with order := pre ++ p.nextId :: post }
  have hmem : ∀ n ∈ pre ++ post, n ∈ p.order := fun n hn => horder ▸ mem_middle_iff.mpr (.inr hn)
  have hne : ∀ n ∈ pre ++ post, n ≠ p.nextId := fun n hn =>
    Plan.ne_nextId (hp.inArena n (hmem n hn))
  have hnodup : placed.order.Nodup := by
    have hlist := horder ▸ hp.nodup
    refine nodup_middle.mpr (nodup_cons.mpr ⟨fun hmem => hne _ hmem rfl, ?_⟩)
    exact (nodup_cons.mp (nodup_middle.mp hlist)).2
  have hin : ∀ n ∈ placed.order, n.index < placed.arena.size := by
    intro n hn
    change n.index < (p.alloc node).arena.size
    rw [size_alloc]
    rcases mem_middle_iff.mp hn with rfl | hn
    · exact Nat.lt_succ_self _
    · exact Nat.lt_succ_of_lt (hp.inArena n (hmem n hn))
  have hlive : ∀ x, (x ∈ placed.order ∧ x ≠ p.nextId) ↔ x ∈ pre ++ post := fun x => by
    change (x ∈ pre ++ p.nextId :: post ∧ _) ↔ _
    rw [mem_middle_iff]
    exact ⟨fun h => h.1.resolve_left h.2, fun h => ⟨.inr h, hne x h⟩⟩
  have hredirect := node_redirectAll hnodup hin p.nextId joins.tail topJoin
  { filter, topJoin, joins, leftmost, inputs, op, buildId, pre, post, below
    moved := placed.redirectAll p.nextId joins.tail topJoin
    chain := hchain
    flattenChain_eq := hop
    olds_eq := holds
    order_eq := horder
    shape := (SameShape.of_arena_eq (p := p.alloc node) (q := placed) rfl).trans (.redirectAll hnodup hin ..)
    order_moved := hredirect.2.1
    node_moved := fun x => by
      rw [hredirect.2.2]
      by_cases hx : x ∈ pre ++ post
      · have hsame : placed.node x = p.node x := node_alloc_of_ne node (hne x hx)
        rw [if_pos ((hlive x).mpr hx), if_pos hx, op_congr hsame, hsame]
      · rw [if_neg fun h => hx ((hlive x).mp h), if_neg hx]
        rfl }

/-- What read the top of the chain reads the new node. -/
def NewNode.takeover (f : NewNode p root) (hp : p.Ordered p.order)
    (h : f.moved.replaceInputEverywhere f.top p.nextId none = .ok r) : Takeover p root where
  toNewNode := f
  rewired := r
  redirect_eq := h
  rewires := replaceInputEverywhere_rewired h (f.nodup_moved hp) (f.inArena_moved hp)

namespace Takeover

variable (f : Takeover p root) {n o : NodeId}

theorem order_rewired : f.rewired.order = f.pre ++ p.nextId :: f.post :=
  f.rewires.order_eq.trans f.order_moved

section

variable (hp : p.Ordered p.order)
include f hp

theorem inputs_rewired (hn : n ∈ f.pre ++ f.post) :
    f.rewired.inputs n = (p.inputs n).map (f.top.replaced p.nextId) := by
  rw [f.rewires.inputs_eq ((f.mem_changed hp).mpr hn), f.inputs_moved hp hn]
  rfl

theorem nodup_rewired : f.rewired.order.Nodup := f.rewires.order_eq ▸ f.nodup_moved hp

theorem inArena_rewired : ∀ n ∈ f.rewired.order, n.index < f.rewired.arena.size := by
  rw [f.rewires.order_eq, f.rewires.size_eq]
  exact f.inArena_moved hp

variable (hroot : root ∈ p.order)
include hroot

theorem ordered_rewired : f.rewired.Ordered (f.pre ++ f.top :: p.nextId :: f.post) := by
  refine f.rewires.ordered (f.ordered_moved hp hroot) fun n hn _ hread => ?_
  have hn := (f.mem_changed hp).mp hn
  rw [f.inputs_moved hp hn] at hread
  have hlist : p.Ordered (f.pre ++ f.top :: f.post) := f.order_eq_top ▸ hp
  have hpost := hlist.mem_of_reads (mem_middle_iff.mpr (.inr hn)) hread
  rw [append_cons, append_cons]
  exact pair_sublist_of_mem (by simp) hpost

/-- When the turn of a node of the chain comes, what still reads it is the new node at most. -/
theorem mem_of_reads_rewired {done rest : List NodeId} (hsplit : f.below = done ++ o :: rest)
    (hn : n ∈ f.rewired.order) (hnew : n ≠ p.nextId) (hread : o ∈ f.rewired.inputs n) :
    n ∈ done := by
  rw [f.order_rewired] at hn
  have hn := (mem_middle_iff.mp hn).resolve_left hnew
  rw [f.inputs_rewired hp hn] at hread
  obtain ⟨i, hi, hio⟩ := mem_map.mp hread
  have ho : o ∈ f.pre := f.below_before hp hroot (by simp [hsplit])
  have hiold : i ≠ f.top := by
    rintro rfl
    rw [NodeId.replaced_self] at hio
    exact f.ne_nextId hp (mem_append_left _ ho) hio.symm
  rw [NodeId.replaced_of_ne _ hiold] at hio
  exact f.mem_of_reads hp hroot hsplit hn (hio ▸ hi)

/-- The nodes of the chain below the top leave one after another. -/
theorem retires_of_retireAll {done : List NodeId} (hdone : done <+: f.below)
    (h : f.rewired.retireAll p.nextId f.top done = .ok r) :
    Retires f.rewired r p.nextId done := by
  refine .of_retireAll (f.nodup_rewired hp) (f.inArena_rewired hp)
    (fun hmem => f.top_not_mem_below hp hroot (hdone.subset hmem)) ?_ h
  rintro front o rest rfl n hn hnew hread
  obtain ⟨behind, hbehind⟩ := hdone
  have hsplit : f.below = front ++ o :: (rest ++ behind) := by simp [← hbehind]
  exact f.mem_of_reads_rewired hp hroot hsplit hn hnew hread

end

end Takeover

/-- Flattening a chain has three parts. -/
theorem Ordered.flattening (hp : p.Ordered p.order) (hroot : root ∈ p.order) {next next' : Nat}
    (h : p.flattenAt root next = .ok (q, next')) : Nonempty (Flattening p root q) := by
  obtain ⟨filter, topJoin, joins, leftmost, inputs, op, buildId, pre, post, hchain, hop, horder,
    hretire⟩ := flattenAt_eq_ok h
  obtain ⟨below, holds⟩ := hchain.exists_cons
  rw [holds, retireAll, foldlM_cons] at hretire
  obtain ⟨r, hr, hretire⟩ := Result.bind_eq_ok.mp hretire
  obtain ⟨r', hr, hr'⟩ := Result.bind_eq_ok.mp hr
  rw [if_pos rfl] at hr'
  cases Result.pure_eq_ok.mp hr'
  let f := (hp.newNode buildId hchain hop holds horder).takeover hp hr
  exact ⟨{ f with retires := f.retires_of_retireAll hp hroot (prefix_refl _) hretire }⟩

namespace Flattening

variable (f : Flattening p root q) {n : NodeId}

section

variable (hp : p.Ordered p.order)
include f hp

/-- What is left reads what it read, and the new node in place of the top. -/
theorem inputs_eq (hn : n ∈ f.pre ++ f.post) :
    q.inputs n = (p.inputs n).map (f.top.replaced p.nextId) := by
  rw [f.retires.inputs_eq, f.inputs_rewired hp hn]

theorem inputs_nextId : q.inputs p.nextId = f.inputs := by
  rw [f.retires.inputs_eq, f.rewires.inputs_other]
  · exact congrArg Node.inputs (f.node_nextId hp)
  · rw [f.mem_changed hp]
    exact fun hmem => f.ne_nextId hp hmem rfl

variable (hroot : root ∈ p.order)
include hroot

/-- The new node stands in the place of the top. -/
theorem order_result : q.order = f.pre.filter (· ∉ f.below) ++ p.nextId :: f.post := by
  have hnew := f.nextId_not_mem_below hp hroot
  have hpost : f.post.filter (· ∉ f.below) = f.post := filter_eq_self.mpr fun n hn => by
    refine decide_eq_true fun ho => ?_
    have hnodup := (nodup_append.mp (f.nodup hp)).2.2
    exact hnodup n (f.below_before hp hroot ho) n (mem_cons_of_mem _ hn) rfl
  rw [f.retires.order_eq, f.order_rewired, filter_append, filter_cons_of_pos (by simpa using hnew),
    hpost]

/-- The order lists every node behind its inputs again. -/
theorem ordered : q.Ordered q.order := by
  have hlist : q.Ordered (f.pre ++ f.top :: p.nextId :: f.post) :=
    (f.ordered_rewired hp hroot).congr (Nat.le_of_eq f.retires.size_eq.symm)
      fun n _ => f.retires.inputs_eq n
  have hfilter : q.order = (f.pre ++ f.top :: p.nextId :: f.post).filter
      fun n => n ∉ f.top :: f.below := by
    have hkeep : ∀ n ∈ f.pre ++ p.nextId :: f.post, n ≠ f.top := by
      rintro n hn rfl
      rcases mem_middle_iff.mp hn with htop | hn
      · exact Plan.ne_nextId (hp.inArena _ (f.mem_order.mpr (.inl rfl))) htop
      · exact f.top_not_mem hp hn
    rw [f.retires.order_eq, f.order_rewired, filter_append, filter_append,
      filter_cons_of_neg (a := f.top) (by simp)]
    refine congrArg₂ _ (filter_congr fun n hn => ?_) (filter_congr fun n hn => ?_)
    · simp [hkeep n (mem_append_left _ hn)]
    · simp [hkeep n (mem_append_right _ hn)]
  rw [hfilter]
  refine hlist.filter fun n hn hkeep i hi => ?_
  simp only [decide_eq_true_eq, mem_cons, not_or] at hkeep ⊢
  have hn : n = p.nextId ∨ n ∈ f.pre ++ f.post := by
    simp only [mem_append, mem_cons] at hn ⊢
    grind
  rcases hn with rfl | hn
  · rw [f.inputs_nextId hp] at hi
    obtain ⟨hpre, hbelow⟩ := f.inputs_before hp hroot hi
    exact ⟨fun htop => f.top_not_mem hp (htop ▸ mem_append_left _ hpre), hbelow⟩
  · rw [f.inputs_eq hp hn] at hi
    obtain ⟨j, hj, rfl⟩ := mem_map.mp hi
    by_cases hjtop : j = f.top
    · rw [hjtop, NodeId.replaced_self]
      refine ⟨fun h => ?_, fun h => ?_⟩
      · exact Plan.ne_nextId (hp.inArena _ (f.mem_order.mpr (.inl rfl))) h.symm
      · exact f.ne_nextId hp (mem_append_left _ (f.below_before hp hroot h)) rfl
    · rw [NodeId.replaced_of_ne _ hjtop]
      exact ⟨hjtop, fun h => hkeep.2 (f.mem_below_of_reads hp hroot hn h hj)⟩

end

end Flattening

end Plan

end QueryPlan
