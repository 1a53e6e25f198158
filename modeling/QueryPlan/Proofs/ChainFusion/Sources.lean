import QueryPlan.Proofs.Scope.Chains
/-!
# QueryPlan.Proofs.ChainFusion.Sources

**The lists of a compound fit together.** A compound is built up along its chain. The first
projection supplies the sources, and an aggregate looks up its keys and operands among those. Later
nodes add sources behind them, so all of them stay where they are (`Compound.Coherent`).

A projection behind an aggregate puts sources in place of columns, and the group keys among the
sources refer to what the compound supplies. If no expression of the chain does so itself, whatever
is supplied is one of the keys (`Plan.Chained.made`).
-/

namespace QueryPlan

open List Plan

/-! ### Supplied values -/

namespace Leaf

/-- The supplied value that a leaf refers to. -/
def supplied? : Leaf → Option Nat
  | .supplied k => some k
  | _ => none

end Leaf

namespace Expr

variable {e : Expr} {k : Nat}

/-- The supplied values that an expression refers to. -/
def suppliedIndices (e : Expr) : List Nat := e.leaves.filterMap Leaf.supplied?

theorem mem_suppliedIndices : k ∈ e.suppliedIndices ↔ .supplied k ∈ e.leaves := by
  rw [suppliedIndices, mem_filterMap]
  constructor
  · rintro ⟨l, hl, hk⟩
    cases l with
    | supplied i => exact Option.some.inj hk ▸ hl
    | _ => cases hk
  · exact fun h => ⟨_, h, rfl⟩

@[simp] theorem suppliedIndices_mapColumns (f : ColumnRef → ColumnRef) (e : Expr) :
    (e.mapColumns f).suppliedIndices = e.suppliedIndices := by
  rw [suppliedIndices, leaves_mapColumns, filterMap_map]
  refine filterMap_congr fun l _ => ?_
  cases l <;> rfl

end Expr

/-- The operands of an aggregate. -/
def Operator.operands : Operator → List Nat
  | aggregate a => a.calls.flatMap AggregateCall.operands
  | _ => []

@[simp] theorem Operator.operands_mapExprs (f : Expr → Expr) (op : Operator) :
    (op.mapExprs f).operands = op.operands := by
  cases op <;> rfl

/-! ### Lists that fit together -/

/-- The lists of a compound fit together, given the expressions of the first projection: targets
stand for sources and calls that are there, keys and operands are sources of this projection, and
supplied values are keys. -/
structure Compound.Coherent (first : List Expr) (c : Compound) : Prop where
  sources_begin : first <+: c.sources
  source_lt : ∀ i, CompoundTarget.source i ∈ c.targets → i < c.sources.length
  call_lt : ∀ i, CompoundTarget.call i ∈ c.targets → i < c.calls.length
  groupCount_le : c.groupCount ≤ first.length
  operand_lt : ∀ call ∈ c.calls, ∀ k ∈ call.operands, k < first.length
  supplied : ∀ e ∈ c.sources, ∀ k ∈ e.suppliedIndices, 1 ≤ k ∧ k ≤ c.groupCount
  filter_unsupplied : ∀ e ∈ c.filter, e.suppliedIndices = []
  /-- Without an aggregate there is nothing to group or to call. -/
  plain : c.isAggregate = false → c.calls = [] ∧ c.groupCount = 0 ∧
    ∀ e ∈ c.sources, e.suppliedIndices = []

namespace Compound.Coherent

variable {first : List Expr} {c : Compound}

/-- Other columns in the expressions leave the lists as they are. -/
theorem mapColumns (h : c.Coherent first) (σ : ColumnRef → ColumnRef) :
    Coherent (first.map (Expr.mapColumns σ))
      { c with filter := c.filter.map (Expr.mapColumns σ)
               sources := c.sources.map (Expr.mapColumns σ) } where
  sources_begin := h.sources_begin.map _
  source_lt i hi := by
    rw [length_map]
    exact h.source_lt i hi
  call_lt := h.call_lt
  groupCount_le := by
    rw [length_map]
    exact h.groupCount_le
  operand_lt call hcall k hk := by
    rw [length_map]
    exact h.operand_lt call hcall k hk
  supplied e he k hk := by
    obtain ⟨d, hd, rfl⟩ := mem_map.mp he
    exact h.supplied d hd k (Expr.suppliedIndices_mapColumns σ d ▸ hk)
  filter_unsupplied e he := by
    obtain ⟨d, hd, rfl⟩ := Option.map_eq_some_iff.mp he
    exact (Expr.suppliedIndices_mapColumns σ d).trans (h.filter_unsupplied d hd)
  plain haggregate := by
    obtain ⟨hcalls, hcount, hunsupplied⟩ := h.plain haggregate
    refine ⟨hcalls, hcount, fun e he => ?_⟩
    obtain ⟨d, hd, rfl⟩ := mem_map.mp he
    exact (Expr.suppliedIndices_mapColumns σ d).trans (hunsupplied d hd)

/-- An aggregate over the first projection looks up keys and operands there. Its keys are supplied
behind the sources. -/
theorem aggregate (h : c.Coherent first) (hplain : c.isAggregate = false)
    (hsources : c.sources = first) {a : Aggregate} (hcount : a.groupCount ≤ first.length)
    (hoperands : ∀ call ∈ a.calls, ∀ k ∈ call.operands, k < first.length) :
    Coherent first { c with
      isAggregate := true
      fields := a.fields
      calls := a.calls
      groupCount := a.groupCount
      sources := c.sources ++ (range a.groupCount).map fun k => Expr.supplied (k + 1)
      targets := ((range a.groupCount).map fun k => .source (c.sources.length + k)) ++
        (range a.calls.length).map .call } where
  sources_begin := hsources ▸ prefix_append c.sources _
  source_lt i hi := by
    have hkey : ∃ k < a.groupCount, c.sources.length + k = i := by simpa using hi
    obtain ⟨k, hk, rfl⟩ := hkey
    simpa using hk
  call_lt i hi := by simpa using hi
  groupCount_le := hcount
  operand_lt := hoperands
  supplied e he k hk := by
    rcases mem_append.mp he with he | he
    · rw [(h.plain hplain).2.2 e he] at hk
      cases hk
    · obtain ⟨key, hkey, rfl⟩ := mem_map.mp he
      obtain rfl : k = key + 1 := mem_singleton.mp hk
      exact ⟨Nat.succ_pos key, mem_range.mp hkey⟩
  filter_unsupplied := h.filter_unsupplied
  plain := nofun

/-- A later projection picks targets, and adds sources that it has targets for. -/
theorem rearrange (h : c.Coherent first) {targets : List CompoundTarget} {sources : List Expr}
    {fields : List String} {target : Option ModifyTarget} (hsources : c.sources <+: sources)
    (htargets : ∀ t ∈ targets, t ∈ c.targets ∨ ∃ i < sources.length, t = .source i)
    (hsupplied : ∀ e ∈ sources, ∀ k ∈ e.suppliedIndices, 1 ≤ k ∧ k ≤ c.groupCount) :
    Coherent first { c with
      fields := fields, target := target, targets := targets, sources := sources } where
  sources_begin := h.sources_begin.trans hsources
  source_lt i hi := by
    rcases htargets _ hi with hold | ⟨k, hk, heq⟩
    · exact Nat.lt_of_lt_of_le (h.source_lt i hold) hsources.length_le
    · cases heq
      exact hk
  call_lt i hi := by
    rcases htargets _ hi with hold | ⟨k, -, heq⟩
    · exact h.call_lt i hold
    · cases heq
  groupCount_le := h.groupCount_le
  operand_lt := h.operand_lt
  supplied := hsupplied
  filter_unsupplied := h.filter_unsupplied
  plain haggregate := by
    obtain ⟨hcalls, hcount, -⟩ := h.plain haggregate
    refine ⟨hcalls, hcount, fun e he => eq_nil_iff_forall_not_mem.mpr fun k hk => ?_⟩
    obtain ⟨hleast, hmost⟩ := hsupplied e he k hk
    exact Nat.not_succ_le_zero 0 (Nat.le_trans hleast (hcount ▸ hmost))

end Compound.Coherent

/-! ### The compound of a chain -/

namespace Plan

/-- The column at the same position in the output of a node. -/
def columnAt (p : Plan) (id : NodeId) (c : ColumnRef) : ColumnRef :=
  ((p.columnsOf (p.exposed id))[c.index]?).getD c

/-- The first projection of a chain, and its expressions as expressions over the input of the
chain. -/
inductive FirstSources (p : Plan) : List NodeId → Project → List Expr → Prop
  | plain {id : NodeId} {rest : List NodeId} {j : Project} : p.op id = .project j →
    FirstSources p (id :: rest) j j.exprs
  | filtered {x id input : NodeId} {rest : List NodeId} {c : Filter} {j : Project} :
    p.op x = .filter c → p.op id = .project j → p.inputs id = [x] → p.inputs x = [input] →
    FirstSources p (x :: id :: rest) j (j.exprs.map (Expr.mapColumns (p.columnAt input)))

variable {p : Plan} {id last input : NodeId} {ids joinRoots : List NodeId} {stage : ChainStage}
  {j : Project} {first : List Expr}

theorem FirstSources.append (h : p.FirstSources ids j first) (more : List NodeId) :
    p.FirstSources (ids ++ more) j first := by
  cases h with
  | plain hop => exact .plain hop
  | filtered hfilter hop hread hinput => exact .filtered hfilter hop hread hinput

theorem FirstSources.length_eq (h : p.FirstSources ids j first) :
    first.length = j.exprs.length := by
  cases h with
  | plain => rfl
  | filtered => exact length_map _

end Plan

namespace Fusion

variable {p : Plan} {id last input : NodeId} {ids : List NodeId} {f g : Fusion} {j : Project}
  {first : List Expr}

/-- What the compound is made of at a stage of a chain. -/
def Made (p : Plan) (ids : List NodeId) (f : Fusion) : ChainStage → Prop
  | .start | .filtered => ∃ filter : Option Expr,
    f.compound = { Fusion.start.compound with filter := filter } ∧
      ∀ e ∈ filter, e.suppliedIndices = []
  | .projected => ∃ j first, p.FirstSources ids j first ∧ f.compound.sources = first ∧
    f.compound.targets.length = first.length ∧ f.compound.isAggregate = false ∧
      f.compound.Coherent first
  | .grouped => ∃ j first, p.FirstSources ids j first ∧ f.compound.Coherent first

/-- The first projection supplies the sources, in order. -/
theorem coherent_addSources {filter : Option Expr}
    (hg : g.compound = { Fusion.start.compound with filter := filter })
    (hfilter : ∀ e ∈ filter, e.suppliedIndices = [])
    (hfirst : ∀ e ∈ first, e.suppliedIndices = []) (fields : List String)
    (target : Option ModifyTarget) :
    (({ g with compound := { g.compound with
      fields := fields, target := target } }.addSources first).compound).Coherent first := by
  simp only [addSources, hg]
  exact {
    sources_begin := prefix_rfl
    source_lt := fun i hi => by simpa using hi
    call_lt := fun i hi => by simp at hi
    groupCount_le := Nat.zero_le _
    operand_lt := fun _ hcall => absurd hcall not_mem_nil
    supplied := fun e he k hk => by
      rw [hfirst e he] at hk
      cases hk
    filter_unsupplied := hfilter
    plain := fun _ => ⟨rfl, rfl, hfirst⟩ }

/-- Later projections leave the sources where they are, and their targets are targets from before or
sources of their own. -/
theorem addTarget_mapM_targets {targets ts : List CompoundTarget} {es sources sources' : List Expr}
    (h : (es.mapM (addTarget targets last)).run sources = .ok (ts, sources')) :
    sources <+: sources' ∧
      ∀ t ∈ ts, t ∈ targets ∨ ∃ i < sources'.length, t = .source i := by
  induction es generalizing sources ts with
  | nil =>
      cases h
      exact ⟨prefix_rfl, nofun⟩
  | cons e es ih =>
      rw [mapM_cons] at h
      obtain ⟨⟨t, middle⟩, he, h⟩ := Result.bind_eq_ok.mp h
      obtain ⟨⟨rest, final⟩, hrest, h⟩ := Result.bind_eq_ok.mp h
      cases h
      obtain ⟨hgrow, htargets⟩ := ih hrest
      rcases addTarget_eq_ok he with ⟨rfl, ht⟩ | ⟨source, -, rfl, rfl⟩
      · exact ⟨hgrow, forall_mem_cons.mpr ⟨.inl ht, htargets⟩⟩
      · refine ⟨(prefix_append sources [source]).trans hgrow,
          forall_mem_cons.mpr ⟨.inr ⟨_, ?_, rfl⟩, htargets⟩⟩
        exact Nat.lt_of_lt_of_le (by simp) hgrow.length_le

end Fusion

namespace Plan

open Fusion

variable {p : Plan} {id last input : NodeId} {ids joinRoots : List NodeId} {stage : ChainStage}
  {f g : Fusion} {j : Project} {first : List Expr}

/-- Reading through a filter puts columns of its input in place of its own. -/
theorem readThroughFilter_eq {filter : NodeId} {exprs exprs' : List Expr} {l : List NodeId}
    (hp : p.Arranged l) (hlive : input ∈ l) (hinput : p.inputs filter = [input])
    (hexprs : ∀ e ∈ exprs, ∀ c ∈ e.columns, c.source = filter)
    (h : p.readThroughFilter filter exprs = .ok exprs') :
    exprs' = exprs.map (Expr.mapColumns (p.columnAt input)) := by
  obtain ⟨i, hi, h⟩ := Result.bind_eq_ok.mp h
  obtain ⟨columns, hcolumns, h⟩ := Result.bind_eq_ok.mp h
  obtain ⟨rfl, -⟩ := cons.inj (hinput.symm.trans (Node.singleInput_eq_ok.mp hi))
  rw [hp.output_eq hlive] at hcolumns
  obtain rfl := Except.ok.inj hcolumns
  refine Except.ok.inj (h.symm.trans (Result.mapM_ok fun e he => ?_))
  obtain ⟨e', -, he'⟩ := Result.mapM_mem_left h he
  rw [he', (Expr.mapColumnsM_inv he').2]
  refine congrArg Except.ok (Expr.mapColumns_congr fun c hc => ?_)
  rw [if_pos (hexprs e he c hc), columnAt]
  cases (p.columnsOf (p.exposed input))[c.index]? <;> rfl

/-- The first projection of a chain supplies the sources. -/
theorem fuseNode_first_made (hp : p.WellFormed) (hchain : p.Chained joinRoots ids stage)
    (hid : id ∈ p.order) (hlink : ∀ last ∈ ids.getLast?, p.OnlyReader last id)
    (hinput : ∀ first ∈ (ids ++ [id]).head?, p.inputs first = [input])
    (hop : p.op id = .project j) (hstage : stage = .start ∨ stage = .filtered)
    (hunsupplied : ∀ e ∈ (p.op id).exprs, e.suppliedIndices = [])
    (htaken : g.Taken p input ids stage) (hmade : g.Made p ids stage)
    (h : p.fuseNode g id = .ok f) : f.Made p (ids ++ [id]) .projected := by
  obtain ⟨i, hi, -⟩ := hp.input_of_arity_one hid (by rw [hop]; rfl)
  rw [hop] at hunsupplied
  rcases hstage with rfl | rfl
  · obtain ⟨rfl, rfl⟩ := htaken
    obtain ⟨filter, hg, hfilter⟩ := hmade
    obtain ⟨exprs, hexprs, rfl⟩ := fuseNode_first hop rfl hi h
    obtain rfl := Except.ok.inj hexprs
    exact ⟨j, j.exprs, .plain hop, rfl, by simp [addSources], rfl,
      coherent_addSources hg hfilter hunsupplied _ _⟩
  · obtain ⟨⟨x, c, rfl, hfilterOp, hnode⟩, hprojected, -⟩ := htaken
    obtain ⟨filter, hg, hfilter⟩ := hmade
    have hread : p.inputs id = [x] := (hlink x rfl).inputs_eq hi
    have hbelow : p.inputs x = [input] := hinput x rfl
    have hlive : x ∈ p.order := hchain.subset (mem_singleton_self x)
    obtain ⟨exprs, hexprs, rfl⟩ := fuseNode_first hop hprojected hread h
    rw [if_pos hnode] at hexprs
    have hcolumns : ∀ e ∈ j.exprs, ∀ d ∈ e.columns, d.source = x := fun e he d hd =>
      hp.source_eq hid (by rw [hop]; rfl) hread (by rw [hfilterOp]; rfl)
        (Operator.mem_columns.mpr ⟨e, by rw [hop]; exact he, hd⟩)
    obtain rfl := readThroughFilter_eq hp.arranged
      (hp.arranged.mem_of_input hlive (hbelow ▸ mem_singleton_self input)) hbelow hcolumns hexprs
    refine ⟨j, _, .filtered hfilterOp hop hread hbelow, rfl, by simp [addSources], ?_,
      coherent_addSources hg hfilter (fun e he => ?_) _ _⟩
    · change g.compound.isAggregate = false
      rw [hg]
      rfl
    · obtain ⟨d, hd, rfl⟩ := mem_map.mp he
      exact (Expr.suppliedIndices_mapColumns _ d).trans (hunsupplied d hd)

/-- An aggregate right behind the first projection groups by sources of that. -/
theorem fuseNode_aggregate_made {a : Aggregate} (hop : p.op id = .aggregate a)
    (hcomputes : g.Computes p input last) (hmade : g.Made p ids .projected)
    (hoperands : ∀ k ∈ (p.op id).operands, k < p.columnCount last)
    (h : p.fuseNode g id = .ok f) : f.Made p (ids ++ [id]) .grouped := by
  obtain ⟨j, first, hfirst, hsources, htargets, hplain, hcoherent⟩ := hmade
  obtain ⟨k, hk, rfl⟩ := fuseNode_eq_ok.mp h
  rw [hop] at hk
  obtain ⟨_, hcount, hk⟩ := Result.bind_eq_ok.mp hk
  obtain rfl := Result.pure_eq_ok.mp hk
  refine ⟨j, first, hfirst.append _, hcoherent.aggregate hplain hsources ?_ ?_⟩
  · rw [← hsources]
    exact of_decide_eq_true (Result.ensure_eq_ok.mp hcount)
  · intro call hcall k hk
    rw [← htargets, hcomputes.width]
    refine hoperands k ?_
    rw [hop]
    exact mem_flatMap.mpr ⟨call, hcall, hk⟩

/-- The projection behind an aggregate picks targets and adds sources. -/
theorem fuseNode_later_made (hop : p.op id = .project j) (hcomputes : g.Computes p input last)
    (hunsupplied : ∀ e ∈ (p.op id).exprs, e.suppliedIndices = [])
    (hmade : g.Made p ids .grouped) (h : p.fuseNode g id = .ok f) :
    f.Made p (ids ++ [id]) .grouped := by
  obtain ⟨j', first, hfirst, hcoherent⟩ := hmade
  refine ⟨j', first, hfirst.append _, ?_⟩
  obtain ⟨k, hk, rfl⟩ := fuseNode_eq_ok.mp h
  rw [hop] at hk
  rcases fuseProject_cases hk with ⟨-, targets, sources, htargets, rfl⟩ | ⟨hunprojected, -⟩
  · rcases htargets with ⟨rfl, htargets⟩ | ⟨last', -, htargets⟩
    · refine hcoherent.rearrange prefix_rfl (fun t ht => ?_) hcoherent.supplied
      obtain ⟨e, -, he⟩ := Result.mapM_mem_right htargets ht
      exact .inl (mem_of_targetOf he)
    · obtain ⟨hsources, hpicked⟩ := addTarget_mapM_targets htargets
      -- Its own expressions refer to columns of the aggregate and to no supplied values.
      have hkeys := (addTarget_mapM
        (P := fun l => ∀ k, l = .supplied k → 1 ≤ k ∧ k ≤ g.compound.groupCount)
        (fun s hs l hl k hk => hcoherent.supplied s hs k (Expr.mem_suppliedIndices.mpr (hk ▸ hl)))
        (fun e he l hl => .inl fun k hk => ?_) htargets).2
      · exact hcoherent.rearrange hsources hpicked fun e he k hk =>
          hkeys e he _ (Expr.mem_suppliedIndices.mp hk) k rfl
      · have hown := hunsupplied e (by rw [hop]; exact he)
        exact absurd (hown ▸ Expr.mem_suppliedIndices.mpr (hk ▸ hl)) not_mem_nil
  · cases hcomputes.projected.symm.trans hunprojected

/-- The compound of a chain fits together, and its sources begin with those of the first
projection. -/
theorem Chained.made (h : p.Chained joinRoots ids stage) (hp : p.WellFormed)
    (hinput : ∀ first ∈ ids.head?, p.inputs first = [input])
    (hunsupplied : ∀ id ∈ ids, ∀ e ∈ (p.op id).exprs, e.suppliedIndices = [])
    (hoperands : ∀ id ∈ ids, ∀ i ∈ p.inputs id, ∀ k ∈ (p.op id).operands, k < p.columnCount i)
    (hf : ids.foldlM p.fuseNode .start = .ok f) : f.Made p ids stage := by
  induction h generalizing f with
  | nil =>
      obtain rfl := Except.ok.inj hf
      exact ⟨none, rfl, nofun⟩
  | @next ids id stage next hchain hid hlink hnext ih =>
      obtain ⟨g, hg, hstep⟩ := Result.foldlM_concat_eq_ok.mp hf
      have hfront : ∀ first ∈ ids.head?, p.inputs first = [input] := fun first hfirst =>
        hinput first (mem_head?_append_of_mem_head? hfirst)
      have htaken := hchain.taken hp hfront hg
      have hmade := ih hfront (fun n hn => hunsupplied n (mem_append_left _ hn))
        (fun n hn => hoperands n (mem_append_left _ hn)) hg
      have hidMem : id ∈ ids ++ [id] := mem_append_right _ (mem_singleton_self id)
      rcases nextStage?_eq_some hnext with ⟨rfl, rfl, c, hop⟩ | ⟨rfl, rfl, j, hop⟩ |
        ⟨rfl, rfl, j, hop⟩ | ⟨rfl, rfl, a, hop⟩
      · obtain ⟨rfl, rfl⟩ := htaken
        obtain ⟨k, hk, rfl⟩ := fuseNode_eq_ok.mp hstep
        rw [hop] at hk
        obtain rfl := Result.pure_eq_ok.mp hk
        refine ⟨some c.condition, rfl, fun e he => hunsupplied id hidMem e ?_⟩
        rw [hop, ← Option.some.inj he]
        exact mem_singleton_self c.condition
      · exact fuseNode_first_made hp hchain hid hlink hinput hop (.inl rfl)
          (hunsupplied id hidMem) htaken hmade hstep
      · exact fuseNode_first_made hp hchain hid hlink hinput hop (.inr rfl)
          (hunsupplied id hidMem) htaken hmade hstep
      · obtain ⟨last, hlast, hcomputes⟩ := htaken
        exact fuseNode_aggregate_made hop hcomputes hmade
          (hoperands id hidMem last (hlink last hlast).1) hstep
  | @close ids id hchain hid hlink hend _ ih =>
      obtain ⟨g, hg, hstep⟩ := Result.foldlM_concat_eq_ok.mp hf
      have hfront : ∀ first ∈ ids.head?, p.inputs first = [input] := fun first hfirst =>
        hinput first (mem_head?_append_of_mem_head? hfirst)
      obtain ⟨last, hlast, hcomputes⟩ := hchain.taken hp hfront hg
      have hmade := ih hfront (fun n hn => hunsupplied n (mem_append_left _ hn))
        (fun n hn => hoperands n (mem_append_left _ hn)) hg
      obtain ⟨j, hop⟩ := endsChain_eq_true hend
      exact fuseNode_later_made hop hcomputes
        (hunsupplied id (mem_append_right _ (mem_singleton_self id))) hmade hstep

end Plan

end QueryPlan
