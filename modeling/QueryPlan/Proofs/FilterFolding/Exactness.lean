import QueryPlan.Proofs.FilterFolding.Step
import Mathlib.Data.List.Chain
import Mathlib.Logic.Function.Basic
/-!
# QueryPlan.Proofs.FilterFolding.Exactness

**Filters are merged completely in one run.** The nodes come in an order in which a filter stands
behind the filters below it. So when the turn of a filter comes, the one below it has taken in all
that it can, and one merge is enough. `Plan.Folding` is what the run knows on its way: the chain
that each filter has taken in, and that no filter it has looked at can take in more. Uses do not
change, so this stays true, and a second run finds nothing to do (`Plan.filter_folding_exact`).
-/

namespace QueryPlan

open List

namespace Plan

variable {p q r : Plan} {id inner input x n : NodeId} {folded : NodeId → List NodeId}
  {done : List NodeId} {f g : Filter}

/-- The conjuncts of a filter, about the columns that a node of another plan sees at the places. -/
def conjunctsSeen (p q : Plan) (x n : NodeId) : List Expr :=
  match p.op n with
  | .filter f => f.condition.conjuncts.map (Expr.mapColumns (p.repositioned q n x))
  | _ => []

/-- Filters that stand on each other, each of them read by the next one alone. -/
def FilterChain (p : Plan) (ids : List NodeId) : Prop :=
  (∀ n ∈ ids, ∃ f, p.op n = .filter f) ∧
    ids.IsChain fun below above => p.inputs above = [below] ∧ p.useCount below = 1

/-- What is left of a plan when chains of filters, innermost first, were merged into the filters
over them. -/
structure FoldedChains (p q : Plan) (folded : NodeId → List NodeId) : Prop where
  sublist : q.order <+ p.order
  mem_order : ∀ x, x ∈ q.order ↔ x ∈ p.order ∧ ∀ y ∈ q.order, x ∉ folded y
  chained : ∀ x ∈ q.order, folded x ≠ [] → p.FilterChain (folded x ++ [x])
  node_eq : ∀ x ∈ q.order, q.node x =
    { p.node x with inputs := p.inputs ((folded x).headD x), op := q.op x }
  op_eq : ∀ x ∈ q.order, folded x = [] → q.op x = p.op x
  conjuncts_eq : ∀ x ∈ q.order, ∀ f, p.op x = .filter f → ∃ g, q.op x = .filter g ∧
    g.condition.conjuncts = (folded x ++ [x]).flatMap (p.conjunctsSeen q x)

/-- The chains after a filter took in the one below, with all that this one had taken in. -/
def takenIn (folded : NodeId → List NodeId) (id inner : NodeId) : NodeId → List NodeId :=
  Function.update folded id (folded inner ++ [inner])

theorem takenIn_self (folded : NodeId → List NodeId) (id inner : NodeId) :
    takenIn folded id inner id = folded inner ++ [inner] := Function.update_self ..

theorem takenIn_of_ne (folded : NodeId → List NodeId) (inner : NodeId) (hx : x ≠ id) :
    takenIn folded id inner x = folded x := Function.update_of_ne hx ..

/-- The first filter of a chain that grew at the end is the same. -/
theorem headD_takenIn (folded : NodeId → List NodeId) (id inner : NodeId) :
    (takenIn folded id inner id).headD id = (folded inner).headD inner := by
  rw [takenIn_self]
  cases folded inner <;> rfl

/-- A node is no filter over a filter that only it uses. -/
def Settled (p : Plan) (x : NodeId) : Prop :=
  ∀ f i g, p.op x = .filter f → i ∈ p.inputs x → p.op i = .filter g → p.useCount i ≠ 1

/-! ### One step -/

/-- A step either leaves the plan alone, for there is nothing to do, or merges the filter below. -/
theorem Unambiguous.foldFilter_ok (h : p.Unambiguous) (hid : id ∈ p.order) :
    (p.foldFilter id = .ok p ∧ p.Settled id) ∨
      ∃ q inner input f g, p.foldFilter id = .ok q ∧ Folded p q inner id input f g := by
  unfold foldFilter
  cases hop : p.op id with
  | filter f =>
      have harity := h.arranged.arity id hid
      rw [hop] at harity
      obtain ⟨inner, hinputs⟩ := Arity.exactly_one_admits harity
      have hinner := h.arranged.mem_of_input hid (hinputs ▸ mem_singleton_self inner)
      dsimp only
      rw [Result.bind_ok (Node.singleInput_eq_ok.mpr hinputs)]
      have hsettled : (∀ g, p.op inner = .filter g → p.useCount inner ≠ 1) → p.Settled id := by
        intro hnot f' i g _ hi hg
        rw [hinputs, mem_singleton] at hi
        exact hi ▸ hnot g (hi ▸ hg)
      cases hopInner : p.op inner with
      | filter g =>
          dsimp only
          split
          · next huse =>
            exact .inl ⟨rfl, hsettled fun _ _ => by simpa using huse⟩
          · next huse =>
            have harity := h.arranged.arity inner hinner
            rw [hopInner] at harity
            obtain ⟨input, hinput⟩ := Arity.exactly_one_admits harity
            obtain ⟨r, hr, hfolded⟩ :=
              h.fold_ok hid hop hinputs hopInner hinput (by simpa using huse)
            refine .inr ⟨_, inner, input, f, g, ?_, hfolded⟩
            rw [Result.bind_ok (Node.singleInput_eq_ok.mpr hinput), Result.bind_ok hr]
            rfl
      | _ => exact .inl ⟨rfl, hsettled fun g hg => by rw [hopInner] at hg; cases hg⟩
  | _ => exact .inl ⟨rfl, fun f i g hf => by rw [hop] at hf; cases hf⟩

/-- Where every filter is settled, a run finds nothing to do. -/
theorem Unambiguous.foldFilters_eq_self (h : p.Unambiguous)
    (hsettled : ∀ x ∈ p.order, p.Settled x) : p.foldFilters = .ok p := by
  have hstep : ∀ x ∈ p.order, p.foldFilter x = .ok p := by
    intro x hx
    rcases h.foldFilter_ok hx with ⟨hok, -⟩ | ⟨q, inner, input, f, g, -, s⟩
    · exact hok
    · exact absurd s.useCount_inner (hsettled x hx f inner g s.op_outer
        (s.inputs_outer ▸ mem_singleton_self inner) s.op_inner)
  have hloop : ∀ l ⊆ p.order, l.foldlM foldFilter p = .ok p := by
    intro l hl
    induction l with
    | nil => rfl
    | cons a l ih =>
        rw [foldlM_cons, Result.bind_ok (hstep a (hl mem_cons_self))]
        exact ih fun x hx => hl (mem_cons_of_mem _ hx)
  exact hloop p.order (Subset.refl _)

/-- Every node that stays and was settled still is, and so is the filter above if the one below
was. -/
theorem Folded.settled (s : Folded p q inner id input f g) (hx : x ∈ q.order)
    (hsettled : if x = id then p.Settled inner else p.Settled x) : q.Settled x := by
  intro f' i g' hf hi hg
  have hiq := s.mem_order_of_inputs hx hi
  obtain ⟨hip, hinner⟩ := s.mem_order.mp hiq
  rw [s.useCount_eq hinner]
  -- What is below is a filter now because it was one.
  obtain ⟨g₀, hg₀⟩ : ∃ g₀, p.op i = .filter g₀ := by
    by_cases hiid : i = id
    · exact ⟨f, hiid ▸ s.op_outer⟩
    · exact ⟨g', s.op_other hip hinner hiid ▸ hg⟩
  by_cases hxid : x = id
  · rw [if_pos hxid] at hsettled
    rw [hxid, s.inputs_outer_eq, mem_singleton] at hi
    exact hsettled g i g₀ s.op_inner (by rw [s.inputs_inner, hi]; exact mem_singleton_self _) hg₀
  · rw [if_neg hxid] at hsettled
    obtain ⟨hxp, hxinner⟩ := s.mem_order.mp hx
    rw [s.op_other hxp hxinner hxid] at hf
    rw [s.inputs_other hxp hxinner hxid] at hi
    exact hsettled f' i g₀ hf hi hg₀

/-! ### The run -/

/-- A plan on the way of a run, which has looked at some nodes. -/
structure Folding (p r : Plan) (folded : NodeId → List NodeId) (done : List NodeId) : Prop
    extends FoldedChains p r folded where
  unambiguous : r.Unambiguous
  scope_eq : ∀ x ∈ r.order,
    r.columnsOf (r.reads x) = p.columnsOf (p.reads ((folded x).headD x))
  useCount_eq : ∀ x ∈ r.order, r.useCount x = p.useCount x
  waiting : ∀ x ∈ r.order, x ∉ done → folded x = []
  settled : ∀ x ∈ done, x ∈ r.order → r.Settled x
  rows_eq : ∀ {V : Type} [DecidableEq V] {M : Meaning V}, M.Conjoins →
    ∀ x ∈ r.order, r.rows M x = p.rows M x

/-- A filter sees its own conjuncts where they are. -/
theorem Scoped.conjunctsSeen_self (h : p.Scoped) (hx : x ∈ p.order) (hop : p.op x = .filter f) :
    p.conjunctsSeen p x x = f.condition.conjuncts := by
  rw [conjunctsSeen, hop]
  refine (map_congr_left fun e he => ?_).trans (map_id _)
  refine (Expr.mapColumns_congr fun c hc => ?_).trans (Expr.mapColumns_id e)
  refine repositioned_of_eq rfl (h.mem_columnsOf hx ?_)
  rw [columns_of_filter hop]
  exact Expr.columns_subset_of_mem_conjuncts he hc

/-- Nodes that see the same columns see the same conjuncts. -/
theorem conjunctsSeen_congr {y : NodeId}
    (hscope : q.columnsOf (q.reads x) = r.columnsOf (r.reads y)) :
    p.conjunctsSeen q x = p.conjunctsSeen r y := by
  funext n
  rw [conjunctsSeen, conjunctsSeen, repositioned_congr hscope]

theorem Unambiguous.folding (h : p.Unambiguous) : Folding p p (fun _ => []) [] where
  sublist := Sublist.refl _
  mem_order x := by simp
  chained x _ hx := absurd rfl hx
  node_eq _ _ := rfl
  op_eq _ _ _ := rfl
  conjuncts_eq x hx f hop := by
    refine ⟨f, hop, ?_⟩
    rw [nil_append, flatMap_singleton, h.conjunctsSeen_self hx hop]
  unambiguous := h
  scope_eq _ _ := rfl
  useCount_eq _ _ := rfl
  waiting _ _ _ := rfl
  settled _ hx := absurd hx not_mem_nil
  rows_eq _ _ _ := rfl

namespace Folding

variable (hs : Folding p r folded done)
include hs

/-- A node that is settled is done with. -/
theorem skip (hid : r.Settled id) : Folding p r folded (done ++ [id]) :=
  { hs with
    waiting := fun x hx hdone => hs.waiting x hx fun h => hdone (mem_append_left _ h)
    settled := fun x hx hlive => by
      rcases mem_append.mp hx with hx | hx
      · exact hs.settled x hx hlive
      · exact mem_singleton.mp hx ▸ hid }

section Step

variable (s : Folded r q inner id input f g) (hid : id ∉ done)
include s hid

theorem waiting_id : folded id = [] := hs.waiting id s.live hid

/-- The filter above was not touched before its turn. -/
theorem node_id : r.node id = p.node id := by
  have hop := hs.op_eq id s.live (hs.waiting_id s hid)
  rw [hs.node_eq id s.live, hs.waiting_id s hid, hop]
  rfl

theorem op_id : p.op id = .filter f := op_congr (hs.node_id s hid) ▸ s.op_outer

theorem inputs_id : p.inputs id = [inner] := inputs_congr (hs.node_id s hid) ▸ s.inputs_outer

/-- The filter above takes over the chain of the one below. -/
theorem chained_id : p.FilterChain ((folded inner ++ [inner]) ++ [id]) := by
  have hlink : p.inputs id = [inner] ∧ p.useCount inner = 1 :=
    ⟨hs.inputs_id s hid, (hs.useCount_eq inner s.inner_live).symm.trans s.useCount_inner⟩
  have hinner : p.FilterChain (folded inner ++ [inner]) := by
    by_cases hnone : folded inner = []
    · have hop := hs.op_eq inner s.inner_live hnone
      rw [hnone]
      exact ⟨by simpa [← hop] using ⟨g, s.op_inner⟩, isChain_singleton _⟩
    · exact hs.chained inner s.inner_live hnone
  refine ⟨fun n hn => ?_, ?_⟩
  · rcases mem_append.mp hn with hn | hn
    · exact hinner.1 n hn
    · exact ⟨f, mem_singleton.mp hn ▸ hs.op_id s hid⟩
  · refine isChain_append.mpr ⟨hinner.2, isChain_singleton _, fun a ha b hb => ?_⟩
    obtain rfl : inner = a := by simpa using ha
    obtain rfl : id = b := by simpa using hb
    exact hlink

/-- The conjuncts of the filter above come last. -/
theorem conjuncts_id : ∃ g', q.op id = .filter g' ∧ g'.condition.conjuncts =
    ((folded inner ++ [inner]) ++ [id]).flatMap (p.conjunctsSeen q id) := by
  refine ⟨_, s.op_outer_eq, ?_⟩
  -- The one below is a filter of the plan before the run.
  obtain ⟨g₀, hg₀⟩ := (hs.chained_id s hid).1 inner (by simp)
  obtain ⟨g₁, hg₁, hconjuncts⟩ := hs.conjuncts_eq inner s.inner_live g₀ hg₀
  cases hg₁.symm.trans s.op_inner
  have hscope : r.columnsOf (r.reads id) = p.columnsOf (p.reads id) := by
    rw [hs.scope_eq id s.live, hs.waiting_id s hid]
    rfl
  have hmoved : r.repositioned q id id = p.repositioned q id id := by
    funext c
    rw [repositioned, repositioned, hscope]
  have hown : p.conjunctsSeen q id id =
      f.condition.conjuncts.map (Expr.mapColumns (p.repositioned q id id)) := by
    rw [conjunctsSeen, hs.op_id s hid]
  rw [Filter.conjuncts_prepend, hconjuncts, conjunctsSeen_congr s.scope_outer.symm, flatMap_append,
    flatMap_singleton, flatMap_append, flatMap_append, flatMap_singleton, flatMap_singleton, hown,
    Expr.conjuncts_mapColumns, hmoved]

/-- What is gone is the filter below, or was gone before. -/
theorem mem_order_takenIn : x ∈ q.order ↔
    x ∈ p.order ∧ ∀ y ∈ q.order, x ∉ takenIn folded id inner y := by
  have hidq : id ∈ q.order := s.mem_order.mpr ⟨s.live, s.inner_ne.symm⟩
  have hnone := hs.waiting_id s hid
  rw [s.mem_order, hs.mem_order]
  constructor
  · rintro ⟨⟨hx, hstays⟩, hne⟩
    refine ⟨hx, fun y hy => ?_⟩
    by_cases hyid : y = id
    · rw [hyid, takenIn_self, mem_append, mem_singleton, not_or]
      exact ⟨hstays inner s.inner_live, hne⟩
    · rw [takenIn_of_ne folded inner hyid]
      exact hstays y (s.mem_order.mp hy).1
  · rintro ⟨hx, hstays⟩
    have hself := hstays id hidq
    rw [takenIn_self, mem_append, mem_singleton, not_or] at hself
    refine ⟨⟨hx, fun y hy hmem => ?_⟩, hself.2⟩
    by_cases hyinner : y = inner
    · exact hself.1 (hyinner ▸ hmem)
    · have hyid : y ≠ id := by
        rintro rfl
        rw [hnone] at hmem
        cases hmem
      have hother := hstays y (s.mem_order.mpr ⟨hy, hyinner⟩)
      rw [takenIn_of_ne folded inner hyid] at hother
      exact hother hmem

/-- The filter above reads what the chain reads. -/
theorem node_takenIn (hx : x ∈ q.order) : q.node x =
    { p.node x with
      inputs := p.inputs ((takenIn folded id inner x).headD x)
      op := q.op x } := by
  by_cases hxid : x = id
  · have hnode := hs.node_eq inner s.inner_live
    have hinputs : p.inputs ((folded inner).headD inner) = [input] :=
      (congrArg Node.inputs hnode).symm.trans s.inputs_inner
    rw [hxid, headD_takenIn, hinputs, s.op_outer_eq, ← hs.node_id s hid]
    exact s.node_outer
  · obtain ⟨hxr, hxinner⟩ := s.mem_order.mp hx
    rw [takenIn_of_ne folded inner hxid, s.op_other hxr hxinner hxid, ← hs.node_eq x hxr]
    exact s.node_other x hxr hxinner hxid

/-- The filter above takes in the one below. -/
theorem foldedChains : FoldedChains p q (takenIn folded id inner) where
  sublist := s.order_eq ▸ filter_sublist.trans hs.sublist
  mem_order _ := hs.mem_order_takenIn s hid
  chained x hx hne := by
    by_cases hxid : x = id
    · rw [hxid, takenIn_self]
      exact hs.chained_id s hid
    · rw [takenIn_of_ne folded inner hxid] at hne ⊢
      exact hs.chained x (s.mem_order.mp hx).1 hne
  node_eq _ hx := hs.node_takenIn s hid hx
  op_eq x hx hnone := by
    by_cases hxid : x = id
    · rw [hxid, takenIn_self] at hnone
      exact absurd hnone (by simp)
    · obtain ⟨hxr, hxinner⟩ := s.mem_order.mp hx
      rw [takenIn_of_ne folded inner hxid] at hnone
      exact (s.op_other hxr hxinner hxid).trans (hs.op_eq x hxr hnone)
  conjuncts_eq x hx f' hop := by
    by_cases hxid : x = id
    · rw [hxid, takenIn_self]
      exact hs.conjuncts_id s hid
    · obtain ⟨hxr, hxinner⟩ := s.mem_order.mp hx
      obtain ⟨g', hg', hconjuncts⟩ := hs.conjuncts_eq x hxr f' hop
      refine ⟨g', (s.op_other hxr hxinner hxid).trans hg', ?_⟩
      rw [takenIn_of_ne folded inner hxid, hconjuncts,
        conjunctsSeen_congr (s.scope_other hx hxid).symm]

/-- The filter above takes in the one below, which had taken in all that it could. -/
theorem fold (hinner : inner ∈ done) :
    Folding p q (takenIn folded id inner) (done ++ [id]) where
  toFoldedChains := hs.foldedChains s hid
  unambiguous := s.unambiguous_folded
  scope_eq x hx := by
    by_cases hxid : x = id
    · rw [hxid, headD_takenIn, s.scope_outer, hs.scope_eq inner s.inner_live]
    · rw [takenIn_of_ne folded inner hxid, s.scope_other hx hxid,
        hs.scope_eq x (s.mem_order.mp hx).1]
  useCount_eq x hx := by
    obtain ⟨hxr, hxinner⟩ := s.mem_order.mp hx
    rw [s.useCount_eq hxinner, hs.useCount_eq x hxr]
  waiting x hx hxdone := by
    rw [mem_append, mem_singleton, not_or] at hxdone
    rw [takenIn_of_ne folded inner hxdone.2]
    exact hs.waiting x (s.mem_order.mp hx).1 hxdone.1
  settled x hxdone hx := by
    refine s.settled hx ?_
    split
    · exact hs.settled inner hinner s.inner_live
    · next hxid =>
      have hxdone := (mem_append.mp hxdone).resolve_right (by simpa using hxid)
      exact hs.settled x hxdone (s.mem_order.mp hx).1
  rows_eq hM x hx :=
    (s.rows_eq hM x hx).trans (hs.rows_eq hM x (s.mem_order.mp hx).1)

end Step

end Folding

/-- A run succeeds, and no filter that it leaves can take in more. -/
theorem Unambiguous.foldFilters_ok (h : p.Unambiguous) :
    ∃ q, p.foldFilters = .ok q ∧ ∃ folded, Folding p q folded p.order := by
  refine removals_run (motive := fun done r => ∃ folded, Folding p r folded done) h.nodup
    ⟨_, h.folding⟩ ?_
  rintro done id rest r hsplit hsub hid ⟨folded, hs⟩
  have hdone : id ∉ done := fun hmem =>
    (nodup_append.mp (hsplit ▸ h.nodup)).2.2 id hmem id mem_cons_self rfl
  rcases hs.unambiguous.foldFilter_ok hid with ⟨hok, hsettled⟩ | ⟨q, inner, input, f, g, hok, s⟩
  · exact ⟨r, hok, ⟨folded, hs.skip hsettled⟩, nothing_removed rfl⟩
  · -- The filter below stands before this one, so the run has looked at it.
    have hinner : inner ∈ done := mem_left_of_pair (hsplit ▸ s.pair.trans hsub) (hsplit ▸ h.nodup)
    refine ⟨q, hok, ⟨_, hs.fold s hdone hinner⟩, s.order_eq ▸ filter_sublist, fun x hx hgone => ?_⟩
    obtain rfl : x = inner := by
      by_contra hne
      exact hgone (s.mem_order.mpr ⟨hx, hne⟩)
    exact .inr s.pair

/-- Folding filters succeeds. Every filter that is left has taken in a chain of filters below it,
and its conjuncts are theirs, innermost first, followed by its own. Other nodes stay as they are, no
filter is left over one that only it uses, and a second run changes nothing. Every node that is left
has the rows it had, whatever the operators but `AND` mean.

A condition is a property of a single row: a window function in one sees that row and no other
(`Meaning.truthAt`). -/
theorem filter_folding_exact (h : p.Unambiguous) :
    ∃ q folded, p.foldFilters = .ok q ∧ FoldedChains p q folded ∧
      (∀ x ∈ q.order, (∀ f, p.op x ≠ .filter f) → q.node x = p.node x) ∧
      (∀ x ∈ q.order, q.Settled x) ∧ q.foldFilters = .ok q ∧
      ∀ (V : Type) [DecidableEq V] (M : Meaning V), M.Conjoins →
        ∀ x ∈ q.order, q.rows M x = p.rows M x := by
  obtain ⟨q, hq, folded, hs⟩ := h.foldFilters_ok
  have hsettled : ∀ x ∈ q.order, q.Settled x := fun x hx =>
    hs.settled x (hs.sublist.subset hx) hx
  refine ⟨q, folded, hq, hs.toFoldedChains, fun x hx hother => ?_, hsettled,
    hs.unambiguous.foldFilters_eq_self hsettled, fun V _ M hM => hs.rows_eq hM⟩
  -- A node that is no filter has taken in nothing.
  have hnone : folded x = [] := by
    by_contra hne
    obtain ⟨f, hop⟩ := (hs.chained x hx hne).1 x (by simp)
    exact hother f hop
  have hop := hs.op_eq x hx hnone
  rw [hs.node_eq x hx, hnone, hop]
  rfl

/-- Three filters over a join, the last of them below two other nodes. -/
def filteredJoin : Plan :=
  let rows (name : String) : Operator :=
    .values ⟨[⟨name, .condition⟩], [[.bool true], [.bool false]]⟩
  { arena := #[.make 0 [] (rows "a"),
      .make 1 [] (rows "b"),
      .make 2 [⟨0⟩, ⟨1⟩] (.join ⟨.bool true, .inner⟩),
      .make 3 [⟨2⟩] (.filter ⟨.column ⟨⟨0⟩, 0⟩⟩),
      .make 4 [⟨3⟩] (.filter ⟨.app (.operator .and .condition)
        [.column ⟨⟨3⟩, 1⟩, .column ⟨⟨3⟩, 0⟩]⟩),
      .make 5 [⟨4⟩] (.filter ⟨.column ⟨⟨4⟩, 1⟩⟩),
      .make 6 [⟨5⟩] (.project (.plain [.column ⟨⟨5⟩, 0⟩] ["a"])),
      .make 7 [⟨5⟩, ⟨6⟩] (.join ⟨.bool true, .inner⟩)]
    order := (range 8).map NodeId.mk }

/-- One filter is left, which refers to the inputs of the join. -/
theorem filter_folding_exact_filteredJoin : filteredJoin.Unambiguous ∧
    Meaning.ofTruthValues.Conjoins ∧ ∃ q, filteredJoin.foldFilters = .ok q ∧
      q.order = [⟨0⟩, ⟨1⟩, ⟨2⟩, ⟨5⟩, ⟨6⟩, ⟨7⟩] ∧ q.inputs ⟨5⟩ = [⟨2⟩] ∧
      (q.op ⟨5⟩).columns = [⟨⟨0⟩, 0⟩, ⟨⟨1⟩, 0⟩, ⟨⟨0⟩, 0⟩, ⟨⟨1⟩, 0⟩] ∧ q.foldFilters = .ok q ∧
      q.rows .ofTruthValues ⟨7⟩ = [[some true, some true, some true]] := by
  have h : filteredJoin.Unambiguous :=
    ⟨scoped_of_reads ⟨⟨by decide, by decide, by decide⟩, by decide⟩ (by decide +kernel), by decide⟩
  have hM := Meaning.ofTruthValues_logical.conjoins
  obtain ⟨q, folded, hq, -, -, -, hagain, hrows⟩ := filter_folding_exact h
  have hrun : filteredJoin.foldFilters.holds (fun q =>
      q.order == [⟨0⟩, ⟨1⟩, ⟨2⟩, ⟨5⟩, ⟨6⟩, ⟨7⟩] && q.inputs ⟨5⟩ == [⟨2⟩] &&
        (q.op ⟨5⟩).columns == [⟨⟨0⟩, 0⟩, ⟨⟨1⟩, 0⟩, ⟨⟨0⟩, 0⟩, ⟨⟨1⟩, 0⟩]) = true := by
    decide +kernel
  obtain ⟨q', hq', hresult⟩ := Result.holds_eq_true.mp hrun
  obtain rfl : q = q' := Except.ok.inj (hq.symm.trans hq')
  simp only [Bool.and_eq_true, beq_iff_eq] at hresult
  obtain ⟨⟨horder, hinputs⟩, hcolumns⟩ := hresult
  refine ⟨h, hM, q, hq, horder, hinputs, hcolumns, hagain, ?_⟩
  rw [hrows _ _ hM ⟨7⟩ (horder ▸ by decide)]
  decide +kernel

end Plan

end QueryPlan
