import QueryPlan.Proofs.Flattening.Step
import QueryPlan.Proofs.Shape.Removal
/-!
# QueryPlan.Proofs.Shape.Flattening

**Names under the flattening of joins.** The inputs of a flattened chain have the names of its
topmost join, in the same order (`JoinChain.names_levels`). So flattening a chain renames nothing
(`Flattening.rootNames_eq`), unless the node below the root is no join any more: then only its first
input is kept, and that must do for what is seen from the root (`ChainGivesWay`).
-/

namespace QueryPlan

open List

namespace Plan

variable {p q : Plan} {root : NodeId} {next next' : Nat}

/-! ### One chain -/

/-- A plan whose live order lists every node behind its inputs, of which joins have two. -/
structure Tidy (p : Plan) : Prop where
  ordered : p.Ordered p.order
  fed : p.Fed p.order
  joinInputs : ∀ id ∈ p.order, (p.op id).arity = .exactly 2 → (p.inputs id).length = 2
  fieldsMatch : ∀ id ∈ p.order, (p.op id).FieldsMatch

theorem WellFormed.tidy (h : p.WellFormed) : p.Tidy where
  ordered := h.arranged.toOrdered
  fed := h.arranged.fed
  joinInputs id hid harity := by
    simpa [harity, Arity.admits] using h.arranged.arity id hid
  fieldsMatch := h.fieldsMatch

variable {top left leftmost : NodeId} {joins : List NodeId} {levels levels' : ChainLevels}

/-- With one more level the inputs have the names of the join of this level. -/
theorem Tidy.names_addLevel (hp : p.Tidy) (htop : top ∈ p.order)
    (hleft : (p.inputs top).head? = some left)
    (hnames : ((leftmost :: levels.inputs).map p.columnNames).flatten = p.columnNames left)
    (hstep : p.addLevel levels top = .ok levels') :
    ((leftmost :: levels'.inputs).map p.columnNames).flatten =
      p.columnNames (if p.isBinaryJoin top then top else left) := by
  rcases addLevel_eq_ok hstep with ⟨hop, rfl⟩ | ⟨j, right, hop, hright, rfl⟩
  · rw [hop]
    exact hnames
  · have hjoin : p.isBinaryJoin top = true := by rw [isBinaryJoin, hop]
    have hlength := hp.joinInputs top htop (by rw [hop]; rfl)
    have hinputs : p.inputs top = [left, right] := by
      obtain ⟨a, b, hab⟩ := length_eq_two.mp hlength
      rw [hab] at hleft hright ⊢
      cases hleft
      cases hright
      rfl
    have hpush : leftmost :: (levels.push right j).inputs =
        (leftmost :: levels.inputs) ++ [right] := rfl
    rw [if_pos hjoin, hp.ordered.columnNames_eq htop, hop, hinputs, hpush, map_append,
      flatten_append, hnames]
    rfl

/-- The inputs of the levels of a chain have the names of the topmost join, or the names of the
first input of another node. -/
theorem JoinChain.names_levels (h : p.JoinChain top joins leftmost) (hp : p.Tidy)
    (htop : top ∈ p.order) (hlevels : joins.reverse.foldlM p.addLevel .none = .ok levels) :
    ∃ left, (p.inputs top).head? = some left ∧
      ((leftmost :: levels.inputs).map p.columnNames).flatten =
        p.columnNames (if p.isBinaryJoin top then top else left) := by
  induction h generalizing levels with
  | @single top leftmost hleft =>
      obtain ⟨levels₀, hlevels₀, hstep⟩ := Result.bind_eq_ok.mp hlevels
      cases Result.pure_eq_ok.mp hstep
      exact ⟨leftmost, hleft, hp.names_addLevel htop hleft (by simp [ChainLevels.none]) hlevels₀⟩
  | @more top left leftmost below hleft hjoin _ _ ih =>
      rw [reverse_cons, Result.foldlM_concat_eq_ok] at hlevels
      obtain ⟨levels₀, hlevels₀, hstep⟩ := hlevels
      obtain ⟨_, -, hnames⟩ :=
        ih (hp.ordered.mem_of_input htop (mem_of_head? hleft)) hlevels₀
      rw [if_pos hjoin] at hnames
      exact ⟨left, hleft, hp.names_addLevel htop hleft hnames hstep⟩

namespace Flattening

variable (f : Flattening p root q)

/-- A filter that is taken in has the names of the join below it. -/
theorem columnNames_top (hp : p.Ordered p.order) (hroot : root ∈ p.order) :
    p.columnNames f.top = p.columnNames f.topJoin := by
  unfold NewNode.top
  cases hfilter : f.filter with
  | none => rfl
  | some filter =>
      obtain ⟨rfl, hop, hinputs, -⟩ := f.chain.of_filter hfilter
      refine hp.columnNames_of_first hroot ?_ hinputs
      unfold isFilter at hop
      split at hop
      · next hop' => exact congrArg Operator.layout hop'
      · cases hop

/-- A flattened chain renames nothing that the root shows, if its inputs have the names of its
top. -/
theorem rootNames_eq (hp : p.Ordered p.order) (hroot : root ∈ p.order)
    (hnames : ∀ r ∈ p.root?, f.top ∈ p.shown r →
      (f.inputs.map p.columnNames).flatten = p.columnNames f.top) :
    q.rootNames = p.rootNames := by
  have halloc := f.ordered_alloc hp hroot
  have hmoved : ∀ x ∈ p.order, f.moved.columnNames x = p.columnNames x := fun x hx => by
    rw [f.shape.columnNames_eq, hp.columnNames_alloc _ x hx]
  have hshown : ∀ x ∈ p.order, f.moved.shown x = p.shown x := fun x hx => by
    rw [f.shape.shown_eq, hp.shown_alloc _ x hx]
  have htop : f.top ∈ p.order := f.mem_order.mpr (.inl rfl)
  have hnew : f.moved.columnNames p.nextId = (f.inputs.map p.columnNames).flatten := by
    have hlayout : ((p.alloc f.node).op p.nextId).layout = .all := by
      rw [Plan.op, node_alloc_self]
      rfl
    have hinputs : (p.alloc f.node).inputs p.nextId = f.inputs := by
      rw [Plan.inputs, node_alloc_self]
      rfl
    rw [f.shape.columnNames_eq]
    refine (halloc.columnNames_eq (by simp)).trans ?_
    rw [hlayout, hinputs]
    refine congrArg flatten (map_congr_left fun i hi => hp.columnNames_alloc _ i ?_)
    exact f.mem_order.mpr (.inr (mem_append_left _ (f.inputs_before hp hroot hi).1))
  have hsame := f.rewires.columnNames_eq (f.ordered_moved hp hroot) (f.ordered_rewired hp hroot)
  rw [rootNames, rootNames, root?, root?, f.order_result hp hroot, f.order_eq_top,
    f.retires.columnNames_eq]
  rcases eq_nil_or_concat' f.post with hpost | ⟨front, last, hpost⟩
  · have hlast : p.root? = some f.top := by
      rw [root?, f.order_eq_top, hpost, getLast?_concat]
    have hnames := hnames f.top hlast (hp.mem_shown_self htop)
    rw [hpost, getLast?_concat, getLast?_concat, Option.map_some, Option.map_some,
      hsame p.nextId (by simp) fun _ => ?_]
    · rw [hnew, hnames]
    · rw [hnew, hnames, ← hmoved f.top htop]
      rfl
  · have hlast : p.root? = some last := by
      rw [root?, f.order_eq_top, hpost, ← cons_append, ← append_assoc, getLast?_concat]
    have hmem : last ∈ p.order := mem_of_getLast? hlast
    rw [hpost, ← cons_append, ← append_assoc, getLast?_concat, ← cons_append, ← append_assoc,
      getLast?_concat, Option.map_some, Option.map_some, hsame last (by rw [hpost]; simp)
      fun hold => ?_, hmoved last hmem]
    rw [hshown last hmem] at hold
    rw [hnew, hnames last hlast hold, ← hmoved f.top htop]
    rfl

include f in
/-- What is left is as tidy as it was. -/
theorem tidy (hp : p.Tidy) (hroot : root ∈ p.order) : q.Tidy := by
  have hordered := f.ordered hp.ordered hroot
  have hmem : ∀ x ∈ q.order, x = p.nextId ∨ x ∈ f.pre ++ f.post := by
    intro x hx
    rw [f.order_result hp.ordered hroot] at hx
    rcases mem_append.mp hx with hx | hx
    · exact .inr (mem_append_left _ (mem_filter.mp hx).1)
    · exact (mem_cons.mp hx).imp_right (mem_append_right _)
  have hlayout : ∀ x, (q.op x).layout = (f.moved.op x).layout := fun x =>
    (f.retires.layout_eq x).trans (f.rewires.op_layout x)
  have harity : ∀ x, (q.op x).arity = (f.moved.op x).arity := fun x =>
    (f.retires.arity_eq x).trans (f.rewires.op_arity x)
  have hnew : f.moved.op p.nextId = .leftDeepJoin f.op :=
    congrArg Node.op (f.node_nextId hp.ordered)
  have hold : ∀ x ∈ f.pre ++ f.post, (p.alloc f.node).op x = p.op x := fun x hx =>
    op_congr (node_alloc_of_ne _ (f.ne_nextId hp.ordered hx))
  have hlive : ∀ x ∈ f.pre ++ f.post, x ∈ p.order := fun x hx => f.mem_order.mpr (.inr hx)
  refine ⟨hordered, fun x hx hfirst => ?_, fun x hx hjoin => ?_, fun x hx => ?_⟩
  · rcases hmem x hx with rfl | hx
    · rw [hlayout, hnew] at hfirst
      cases hfirst
    · rw [hlayout, f.shape.layout_eq, ← NewNode.node, hold x hx] at hfirst
      rw [f.inputs_eq hp.ordered hx]
      exact fun h => hp.fed x (hlive x hx) hfirst (map_eq_nil_iff.mp h)
  · rcases hmem x hx with rfl | hx
    · rw [harity, hnew] at hjoin
      cases hjoin
    · rw [harity, f.shape.arity_eq, ← NewNode.node, hold x hx] at hjoin
      rw [f.inputs_eq hp.ordered hx, length_map]
      exact hp.joinInputs x (hlive x hx) hjoin
  · refine f.retires.fieldsMatch x (f.rewires.fieldsMatch ?_)
    rcases hmem x hx with rfl | hx
    · rw [hnew]
      trivial
    · rw [Plan.op, f.node_moved, if_pos hx]
      exact Operator.fieldsMatch_mapExprs _ _ (hp.fieldsMatch x (hlive x hx))

end Flattening

/-! ### All chains -/

/-- If a chain is to be flattened whose top is no join any more, the first input of that node may
stand for the chain. -/
def ChainGivesWay (p : Plan) (root : NodeId) : Prop :=
  p.isLive root = true → match p.chainTop root with
    | .ok (filter, topJoin) => p.isBinaryJoin topJoin = true ∨
        ∀ left ∈ (p.inputs topJoin).head?, p.GivesWay (filter.getD topJoin) left
    | .error _ => True

instance (p : Plan) (root : NodeId) : Decidable (p.ChainGivesWay root) := by
  unfold ChainGivesWay
  cases p.chainTop root <;> infer_instance

/-- The step of the loop that flattens chains. -/
def flattenIfLive (root : NodeId) (p : Plan) : Fresh Plan :=
  if p.isLive root then p.flattenAt root else return p

/-- Every chain that is flattened may give way when its turn comes. -/
def ChainsGiveWay (p : Plan) (next : Nat) : Prop :=
  Result.Along (fun (s : Plan × Nat) root => flattenIfLive root s.1 s.2)
    (fun s root => s.1.ChainGivesWay root) p.joinRoots.eraseDups (p, next)

instance (p : Plan) (next : Nat) : Decidable (p.ChainsGiveWay next) :=
  inferInstanceAs (Decidable (Result.Along _ _ _ _))

theorem flattenIfLive_rootNames (hp : p.Tidy) (hgives : p.ChainGivesWay root)
    (hq : flattenIfLive root p next = .ok (q, next')) : q.Tidy ∧ q.rootNames = p.rootNames := by
  unfold flattenIfLive at hq
  split at hq
  · next hlive =>
    have hroot : root ∈ p.order := contains_iff_mem.mp hlive
    obtain ⟨f⟩ := hp.ordered.flattening hroot hq
    refine ⟨f.tidy hp hroot, f.rootNames_eq hp.ordered hroot fun r hr hshown => ?_⟩
    obtain ⟨levels, -, hlevels, hinputs, -⟩ := flattenChain_eq_ok f.flattenChain_eq
    obtain ⟨left, hleft, hnames⟩ := f.chain.chain.names_levels hp
      (f.chain.topJoin_mem hp.ordered hroot) hlevels
    have hgives := hgives hlive
    rw [f.chain.top] at hgives
    rw [hinputs, hnames]
    by_cases hjoin : p.isBinaryJoin f.topJoin = true
    · rw [if_pos hjoin, f.columnNames_top hp.ordered hroot]
    · rw [if_neg hjoin]
      exact (hgives.resolve_left hjoin) left hleft r hr hshown
  · cases (Fresh.pure_eq_ok.mp hq).1
    exact ⟨hp, rfl⟩

theorem flattenJoins_rootNames (h : p.WellFormed) (hgives : p.ChainsGiveWay next)
    (hq : p.flattenJoins next = .ok (q, next')) : q.Tidy ∧ q.rootNames = p.rootNames := by
  unfold flattenJoins at hq
  rw [Fresh.foldlM_eq] at hq
  refine hgives.foldlM_keeps (motive := fun s => s.1.Tidy ∧ s.1.rootNames = p.rootNames) hq
    ⟨h.tidy, rfl⟩ fun s root t hs hgives hstep => ?_
  obtain ⟨ht, hnames⟩ := flattenIfLive_rootNames hs.1 hgives hstep
  exact ⟨ht, hnames.trans hs.2⟩

end Plan

end QueryPlan
