import QueryPlan.Proofs.Numbering.Nesting
import QueryPlan.Proofs.Numbering.Passes
import QueryPlan.Proofs.Query
import QueryPlan.Proofs.Scope.Binding
/-!
# QueryPlan.Proofs.Numbering.Building

**How a build numbers its nodes.** Between two nodes of a plan whole subqueries may be built, and
they take their numbers from the same source. `Build.Numbers` says what is between two states of a
build: which subqueries were finished, and which numbers went to the plan at hand. It composes, so it
passes from one entry to the list of entries, from there to the finished plan, and from the subqueries
to the plan that holds them (`Plan.finishedOfDocument_raises`).
-/

namespace QueryPlan

open List

/-! ### Binding -/

/-- Binding puts columns in place of positions, and keeps the subqueries. -/
theorem Expr.bindM_among {output : List ColumnRef} {e : Expr} {allowed : List Subquery}
    (he : e.subqueries ⊆ allowed) (s : Option Nat) :
    (amongSubqueries _ allowed).Keeps ((e.bindM output).run s).1.leaves s
      ((e.bindM output).run s).2 := by
  rw [bindM_eq]
  refine Carried.mapLeavesM_state _ (fun l hl s _ => ⟨trivial, trivial, fun k hk x hx => ?_⟩) trivial
  change k ∈ (bindLeaf output l s).1.leaves at hk
  unfold bindLeaf at hk
  split at hk
  · split at hk
    · rw [mem_singleton.mp hk] at hx
      cases hx
    · rw [mem_singleton.mp hk] at hx
      cases hx
  · rw [mem_singleton.mp hk] at hx
    exact he (mem_subqueries.mpr ⟨l, hl, hx⟩)

/-- Binding an operator keeps its subqueries. -/
theorem Operator.subqueries_bindM {output : List ColumnRef} {op op' : Operator} {s s' : Option Nat}
    (hrun : (op.bindM output).run s = (op', s')) : op'.subqueries ⊆ op.subqueries := by
  have hone : ∀ (e : Expr) (s : Option Nat),
      ((e.bindM output).run s).1.subqueries ⊆ e.subqueries := by
    intro e s x hx
    obtain ⟨l, hl, hx⟩ := Expr.mem_subqueries.mp hx
    exact (Expr.bindM_among (Subset.refl _) s).2.2 l hl x hx
  have hlist : ∀ (es : List Expr) (s : Option Nat),
      ((es.mapM (Expr.bindM output)).run s).1.flatMap Expr.subqueries ⊆
        es.flatMap Expr.subqueries := by
    intro es s x hx
    obtain ⟨l, hl, hx⟩ := Expr.mem_flatMap_subqueries.mp hx
    have hkeeps := ((Expr.amongSubqueries _ (es.flatMap Expr.subqueries)).mapM_state
      (f := Expr.bindM output) (s := s) (fun e he s _ =>
        Expr.bindM_among (fun x hx => mem_flatMap.mpr ⟨e, he, hx⟩) s) trivial).1
    exact hkeeps.2.2 l hl x hx
  cases op with
  | filter f =>
      obtain ⟨rfl, -⟩ := Prod.mk.inj hrun
      intro x hx
      rw [subqueries, exprs, flatMap_singleton] at hx ⊢
      exact hone f.condition s hx
  | join j =>
      obtain ⟨rfl, -⟩ := Prod.mk.inj hrun
      intro x hx
      rw [subqueries, exprs, flatMap_singleton] at hx ⊢
      exact hone j.condition s hx
  | project j =>
      obtain ⟨rfl, -⟩ := Prod.mk.inj hrun
      exact hlist j.exprs s
  | tableFunction t =>
      obtain ⟨rfl, -⟩ := Prod.mk.inj hrun
      intro x hx
      simp only [subqueries, exprs, flatMap_append, mem_append] at hx ⊢
      exact hx.imp_left fun hx => hlist t.args s hx
  | _ =>
      obtain ⟨rfl, -⟩ := Prod.mk.inj hrun
      exact Subset.refl _

namespace Plan

theorem Grows.bindNode {p q : Plan} {id : NodeId} (h : p.bindNode id = .ok q) (n : Nat) :
    p.Grows n q n := by
  obtain ⟨-, rfl⟩ | ⟨output, op, -, hrun, rfl⟩ := bindNode_eq_ok_iff.mp h
  · exact .refl q n
  · exact (Grows.refl p n).setOp
      (Subset.trans (Operator.subqueries_bindM hrun) (p.subqueries_op_subset id))

theorem Grows.bind {p q : Plan} (h : p.bind = .ok q) (n : Nat) : p.Grows n q n :=
  Grows.foldlM h fun _ _ _ hstep => Grows.bindNode hstep n

end Plan

/-! ### The list of finished subqueries -/

/-- What an expression shows of a subquery is the plan at its place in a list. -/
def Subquery.RefersTo (x : Subquery) (queries : List Query) : Prop :=
  ∃ q, queries[x.index]? = some q ∧ x.size = q.plan.order.length ∧
    x.root = q.plan.root?.map fun id => (q.plan.node id).buildId

/-- Subqueries that are finished later stand behind, so what is shown remains. -/
theorem Subquery.RefersTo.mono {x : Subquery} {queries queries' : List Query}
    (h : x.RefersTo queries) (hstays : queries <+: queries') : x.RefersTo queries' := by
  obtain ⟨q, hq, hshown⟩ := h
  obtain ⟨rest, rfl⟩ := hstays
  obtain ⟨hplace, -⟩ := List.getElem?_eq_some_iff.mp hq
  exact ⟨q, by rw [getElem?_append_left hplace, hq], hshown⟩

/-- The list of finished subqueries grew, one by one. They have the plans of some documents, and when
one of them was finished, the list was what stands before it. With none of them anything was
registered. -/
inductive Plan.Completes (env : Environment) (before : List Query) : List Json → List Query → Prop
  | nil : Completes env before [] before
  | finish {docs : List Json} {queries : List Query} {d : Json} {p : Plan} {s s' : BuildState} :
      Completes env before docs queries → finishedOfDocument env d s = .ok (p, s') →
      s'.subqueries = queries → Completes env before (docs ++ [d]) (queries ++ [.ofPlan p])

namespace Plan.Completes

variable {env : Environment} {before queries queries' : List Query} {docs docs' : List Json}

theorem trans (h : Completes env before docs queries) (h' : Completes env queries docs' queries') :
    Completes env before (docs ++ docs') queries' := by
  induction h' with
  | nil => rwa [append_nil]
  | finish _ hp hs ih =>
      rw [← append_assoc]
      exact ih.finish hp hs

/-- Nothing is ever taken from the list. -/
theorem stays (h : Completes env before docs queries) : before <+: queries := by
  induction h with
  | nil => exact prefix_refl before
  | finish _ _ _ ih => exact ih.trans (prefix_append _ _)

end Plan.Completes

/-! ### From state to state -/

/-- The numbers that went to finished subqueries. -/
def BuildState.finishedIds (s : BuildState) : List Nat := s.subqueries.flatMap fun q => q.plan.buildIds

/-- Between two states of a build the subqueries of `docs` were finished, and `own` are the numbers
that went to the plan at hand. All numbers in between went to it or to one of these subqueries. -/
structure Build.Numbers (env : Environment) (s : BuildState) (docs : List Json) (own : List Nat)
    (s' : BuildState) : Prop where
  completes : Plan.Completes env s.subqueries docs s'.subqueries
  next_le : s.nextId ≤ s'.nextId
  taken : (s'.finishedIds ++ own).Perm
    (s.finishedIds ++ range' s.nextId (s'.nextId - s.nextId))
  own_bounds : ∀ n ∈ own, s.nextId ≤ n ∧ n < s'.nextId
  increasing : own.Pairwise (· < ·)

namespace Build.Numbers

variable {env : Environment} {s t u : BuildState} {docs docs' : List Json} {own own' : List Nat}

theorem refl (env : Environment) (s : BuildState) : Numbers env s [] [] s where
  completes := .nil
  next_le := Nat.le_refl _
  taken := by simp
  own_bounds := nofun
  increasing := .nil

theorem trans (h : Numbers env s docs own t) (h' : Numbers env t docs' own' u) :
    Numbers env s (docs ++ docs') (own ++ own') u where
  completes := h.completes.trans h'.completes
  next_le := Nat.le_trans h.next_le h'.next_le
  taken := by
    have hle := h.next_le
    have hle' := h'.next_le
    have hrange : range' s.nextId (u.nextId - s.nextId) =
        range' s.nextId (t.nextId - s.nextId) ++ range' t.nextId (u.nextId - t.nextId) := by
      have hsum : s.nextId + (t.nextId - s.nextId) = t.nextId := by omega
      have hall : u.nextId - s.nextId = (t.nextId - s.nextId) + (u.nextId - t.nextId) := by omega
      rw [hall, ← range'_append_1, hsum]
    rw [hrange, ← append_assoc, ← append_assoc]
    calc u.finishedIds ++ own ++ own'
        ~ u.finishedIds ++ own' ++ own := by
          rw [append_assoc, append_assoc]
          exact perm_append_comm.append_left _
      _ ~ t.finishedIds ++ range' t.nextId (u.nextId - t.nextId) ++ own :=
          h'.taken.append_right own
      _ ~ t.finishedIds ++ own ++ range' t.nextId (u.nextId - t.nextId) := by
          rw [append_assoc, append_assoc]
          exact perm_append_comm.append_left _
      _ ~ _ := h.taken.append_right _
  own_bounds := by
    intro n hn
    have hle := h.next_le
    have hle' := h'.next_le
    rcases mem_append.mp hn with hn | hn
    · have := h.own_bounds n hn
      omega
    · have := h'.own_bounds n hn
      omega
  increasing := pairwise_append.mpr ⟨h.increasing, h'.increasing, fun a ha b hb =>
    Nat.lt_of_lt_of_le (h.own_bounds a ha).2 (h'.own_bounds b hb).1⟩

/-- A step of a build that only takes numbers, for the plan at hand. -/
theorem take (env : Environment) {next : Nat} (h : s.nextId ≤ next) :
    Numbers env s [] (range' s.nextId (next - s.nextId)) { s with nextId := next } where
  completes := .nil
  next_le := h
  taken := .refl _
  own_bounds := fun n hn => by
    have := mem_range'_1.mp hn
    dsimp only
    omega
  increasing := pairwise_lt_range'

/-- The plan at hand is finished and kept, and another one is at hand. -/
theorem keep {d : Json} {p : Plan} (h : Numbers env s docs p.buildIds t)
    (hp : Plan.finishedOfDocument env d s = .ok (p, t)) :
    Numbers env s (docs ++ [d]) [] { t with subqueries := t.subqueries ++ [.ofPlan p] } where
  completes := h.completes.finish hp rfl
  next_le := h.next_le
  taken := by
    rw [BuildState.finishedIds, flatMap_append, flatMap_singleton, append_nil]
    exact h.taken
  own_bounds := nofun
  increasing := .nil

end Build.Numbers

/-! ### Plans that are built -/

/-- From one state of a build to another a plan is built. -/
structure Build.Raises (env : Environment) (s : BuildState) (docs : List Json) (p : Plan)
    (s' : BuildState) : Prop extends Numbers env s docs p.buildIds s' where
  refers : ∀ x ∈ p.subqueries, x.RefersTo s'.subqueries

namespace Build.Raises

variable {env : Environment} {s t u : BuildState} {docs : List Json} {p q : Plan}

/-- The subqueries in a list, each behind those inside of it. -/
abbrev unfolded (docs : List Json) : List Json :=
  docs.flatMap fun d => Plan.subqueryDocuments d ++ [d]

/-- What building the subquery of a document does. -/
abbrev BuildsSubquery (env : Environment) (d : Json) : Prop :=
  ∀ {s query s'}, Plan.subqueryOfDocument env d s = .ok (query, s') →
    Numbers env s (Plan.subqueryDocuments d ++ [d]) [] s' ∧ query.RefersTo s'.subqueries

/-- Building subqueries one after another. -/
theorem subqueries {shown : List Subquery} (hdocs : ∀ d ∈ docs, BuildsSubquery env d)
    (hrun : docs.mapM (Plan.subqueryOfDocument env) s = .ok (shown, t)) :
    Numbers env s (unfolded docs) [] t ∧ ∀ x ∈ shown, x.RefersTo t.subqueries := by
  induction docs generalizing s shown with
  | nil =>
      obtain ⟨rfl, rfl⟩ := pure_eq_ok.mp hrun
      exact ⟨.refl env s, nofun⟩
  | cons d docs ih =>
      rw [mapM_cons] at hrun
      obtain ⟨query, m, hquery, hrun⟩ := bind_eq_ok.mp hrun
      obtain ⟨rest, m', hrest, hrun⟩ := bind_eq_ok.mp hrun
      obtain ⟨rfl, rfl⟩ := pure_eq_ok.mp hrun
      obtain ⟨hfirst, hrefers⟩ := hdocs d mem_cons_self hquery
      obtain ⟨hlast, hshown⟩ := ih (fun d hd => hdocs d (mem_cons_of_mem _ hd)) hrest
      refine ⟨hfirst.trans hlast, forall_mem_cons.mpr ⟨?_, hshown⟩⟩
      exact hrefers.mono hlast.completes.stays

/-- The node of an entry gets its number after the subqueries in the entry have got theirs. -/
theorem addNode (h : Raises env s docs p t) {j : Json}
    (hnested : ∀ d ∈ Relation.nestedDocuments j, BuildsSubquery env d)
    (hrun : Relation.addNode env (Expr.ofDocument (Plan.subqueryOfDocument env)) p j t =
      .ok (q, u)) :
    Raises env s (docs ++ unfolded (Relation.nestedDocuments j)) q u := by
  unfold Relation.addNode at hrun
  obtain ⟨_, _, hid, hrun⟩ := bind_eq_ok.mp hrun
  obtain ⟨-, rfl⟩ := lift_eq_ok.mp hid
  obtain ⟨_, _, hplace, hrun⟩ := bind_eq_ok.mp hrun
  obtain ⟨-, rfl⟩ := lift_eq_ok.mp hplace
  obtain ⟨⟨r, inputs, op⟩, m, hnode, hrun⟩ := bind_eq_ok.mp hrun
  obtain ⟨n, _, hfresh, hrun⟩ := bind_eq_ok.mp hrun
  obtain ⟨next, hnext, rfl⟩ := ofFresh_eq_ok.mp hfresh
  obtain ⟨rfl, rfl⟩ := Fresh.freshId_eq_ok.mp hnext
  obtain ⟨_, _, hcheck, hrun⟩ := bind_eq_ok.mp hrun
  obtain ⟨-, rfl⟩ := lift_eq_ok.mp hcheck
  obtain ⟨rfl, rfl⟩ := pure_eq_ok.mp hrun
  obtain ⟨shown, hbuilt, hentry⟩ := (Relation.nodeOf_reads env p j).run hnode
  obtain ⟨hinner, hshown⟩ := subqueries hnested hbuilt
  have hids : r.buildIds = p.buildIds := by
    have := (hentry.plan 0).buildIds_eq
    rwa [Nat.sub_self, range'_zero, append_nil] at this
  have htake := Numbers.take env (s := m) (Nat.le_add_right m.nextId 1)
  rw [Nat.add_sub_cancel_left] at htake
  have hall := (h.toNumbers.trans hinner).trans htake
  rw [append_nil, append_nil] at hall
  refine ⟨by rw [Plan.buildIds_push, hids]; exact hall, fun x hx => ?_⟩
  rw [Plan.subqueries_push, mem_append] at hx
  rcases hx with hx | hx
  · refine (h.refers x ((hentry.plan 0).subqueries_subset hx)).mono ?_
    exact hinner.completes.stays
  · exact hshown x (hentry.op ▸ hx)

/-- A step that changes a plan and takes numbers for it. -/
theorem grow (h : Raises env s docs p t) {next : Nat} (hgrows : p.Grows t.nextId q next) :
    Raises env s docs q { t with nextId := next } where
  toNumbers := by
    have hall := h.toNumbers.trans (.take env hgrows.next_le)
    rwa [append_nil, ← hgrows.buildIds_eq] at hall
  refers x hx := h.refers x (hgrows.subqueries_subset hx)

end Build.Raises

namespace Plan

open Build (Raises Numbers)
open Build.Raises (unfolded BuildsSubquery)

variable {env : Environment} {s s' : BuildState} {p : Plan} {d j : Json}

/-- Reading a plan. -/
theorem ofDocument_raises {rels : Json}
    (hnested : ∀ k ∈ rels.elements, ∀ d ∈ Relation.nestedDocuments k, BuildsSubquery env d)
    (hrun : Plan.ofDocument env (Expr.ofDocument (subqueryOfDocument env)) rels s = .ok (p, s')) :
    Raises env s (unfolded (rels.elements.flatMap Relation.nestedDocuments)) p s' := by
  obtain ⟨ks, _, hlist, hrun⟩ := Build.bind_eq_ok.mp hrun
  obtain ⟨hks, rfl⟩ := Build.lift_eq_ok.mp hlist
  rw [Json.elements_of_asList hks] at hnested ⊢
  suffices ∀ (ks : List Json) (docs : List Json) (p q : Plan) (t : BuildState),
      (∀ k ∈ ks, ∀ d ∈ Relation.nestedDocuments k, BuildsSubquery env d) →
      Raises env s docs p t →
      ks.foldlM (Relation.addNode env (Expr.ofDocument (subqueryOfDocument env))) p t =
        .ok (q, s') →
      Raises env s (docs ++ unfolded (ks.flatMap Relation.nestedDocuments)) q s' from
    this ks [] .empty p s hnested ⟨.refl env s, nofun⟩ hrun
  intro ks
  induction ks with
  | nil =>
      intro docs p q t _ h hrun
      obtain ⟨rfl, rfl⟩ := Build.pure_eq_ok.mp hrun
      rwa [flatMap_nil, unfolded, flatMap_nil, append_nil]
  | cons k ks ih =>
      intro docs p q t hnested h hrun
      rw [foldlM_cons] at hrun
      obtain ⟨r, m, hstep, hrun⟩ := Build.bind_eq_ok.mp hrun
      have hr := h.addNode (hnested k mem_cons_self) hstep
      rw [flatMap_cons, unfolded, flatMap_append, ← append_assoc]
      exact ih _ r q m (fun k hk => hnested k (mem_cons_of_mem _ hk)) hr hrun

/-- Building the plan of a document, from any state: the subqueries in the document are finished,
each behind those inside of it, all numbers that are taken go to these plans and to the plan
itself, and the plan shows subqueries that are finished. -/
theorem finishedOfDocument_raises (hrun : finishedOfDocument env j s = .ok (p, s')) :
    Raises env s (subqueryDocuments j) p s' := by
  -- The induction is on the depth: a document that is nested in this one is less deep.
  induction hdepth : j.depth using Nat.strong_induction_on generalizing j s p s' with
  | _ depth ih =>
  have hnested : ∀ d ∈ nestedDocuments j, BuildsSubquery env d := by
    intro d hd s query s' hquery
    rw [subqueryOfDocument_eq] at hquery
    obtain ⟨q, t, hq, hkeep⟩ := Build.bind_eq_ok.mp hquery
    obtain ⟨rfl, rfl⟩ := Prod.mk.inj (Except.ok.inj hkeep)
    have hraises := ih d.depth (hdepth ▸ depth_lt_of_mem_nested hd) hq rfl
    refine ⟨hraises.keep hq, .ofPlan q, ?_, rfl, rfl⟩
    exact getElem?_concat_length
  obtain ⟨bound, t, hbound, hfinish⟩ := Build.bind_eq_ok.mp hrun
  obtain ⟨⟨next, hoptimize, rfl⟩, -⟩ := Query.finish_eq_ok.mp hfinish
  unfold boundOfDocument at hbound
  obtain ⟨rels, _, hfield, hbound⟩ := Build.bind_eq_ok.mp hbound
  obtain ⟨hrels, rfl⟩ := Build.lift_eq_ok.mp hfield
  obtain ⟨unbound, m, hread, hbound⟩ := Build.bind_eq_ok.mp hbound
  obtain ⟨_, _, hempty, hbound⟩ := Build.bind_eq_ok.mp hbound
  obtain ⟨-, rfl⟩ := Build.lift_eq_ok.mp hempty
  obtain ⟨hbind, rfl⟩ := Build.lift_eq_ok.mp hbound
  have hmember : rels.elements = j.elementsOf "rels" := by
    rw [Json.elementsOf, Json.member_of_field hrels]
  have hraises := ofDocument_raises (fun k hk d hd =>
    hnested d (mem_flatMap.mpr ⟨k, hmember ▸ hk, hd⟩)) hread
  rw [hmember, unfolded, ← nestedDocuments, ← subqueryDocuments_eq] at hraises
  exact (hraises.grow (Grows.bind hbind m.nextId)).grow (Grows.optimize hoptimize)

end Plan

end QueryPlan
