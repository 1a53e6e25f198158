import QueryPlan.Pass.CrossJoins
import QueryPlan.Pass.FilterFolding
import QueryPlan.Pass.IdentityProjects
import QueryPlan.Pass.NopAggregates
import QueryPlan.Pass.RedundantSorts
import QueryPlan.Proofs.Expr.Conjuncts
import QueryPlan.Proofs.Plan.Loops
import QueryPlan.Proofs.Plan.Uses
import QueryPlan.Proofs.Scope.Bypass
/-!
# QueryPlan.Proofs.Scope.Removal

**Passes that mark nodes or take nodes out.** Each of them looks at the live nodes in order and
takes out at most the node that it looks at or one further up front, so every node is live when
its turn comes (`WellFormed.of_removals`). What remains is that a single step keeps references
in sight.
-/

namespace QueryPlan

open List

namespace Plan

variable {p q : Plan} {id : NodeId}

/-- A loop over the live nodes keeps a plan well-formed if each step does and takes out nothing
further back than the node that it looks at. What else the steps keep, the loop keeps. -/
theorem WellFormed.removals_induct {f : Plan → NodeId → Result Plan}
    {motive : List NodeId → Plan → Prop} (h : p.WellFormed) (hq : p.order.foldlM f p = .ok q)
    (start : motive [] p)
    (step : ∀ done id rest r r', p.order = done ++ id :: rest → r.WellFormed → id ∈ r.order →
      motive done r → f r id = .ok r' → (r'.WellFormed ∧ r'.order <+ r.order ∧
        ∀ x ∈ r.order, x ∉ r'.order → x = id ∨ [x, id] <+ r.order) ∧ motive (done ++ [id]) r') :
    q.WellFormed ∧ motive p.order q := by
  refine Plan.removals_induct (motive := fun done r => r.WellFormed ∧ motive done r) h.nodup hq
    ⟨h, start⟩ fun done id rest r r' hsplit hid hr hstep => ?_
  obtain ⟨⟨hwf, hsub, hgone⟩, hmotive⟩ := step done id rest r r' hsplit hr.1 hid hr.2 hstep
  exact ⟨⟨hwf, hmotive⟩, hsub, hgone⟩

theorem WellFormed.of_removals {f : Plan → NodeId → Result Plan} (h : p.WellFormed)
    (hq : p.order.foldlM f p = .ok q)
    (step : ∀ r r' id, r.WellFormed → id ∈ r.order → f r id = .ok r' →
      r'.WellFormed ∧ r'.order <+ r.order ∧
        ∀ x ∈ r.order, x ∉ r'.order → x = id ∨ [x, id] <+ r.order) : q.WellFormed :=
  (h.removals_induct (motive := fun _ _ => True) hq trivial
    fun _ id _ r r' _ hr hid _ hstep => ⟨step r r' id hr hid hstep, trivial⟩).1

/-! ### Groupings and copies -/

/-- What holds of a node if it does of its projection and its input, should it have these, is
decided there. -/
def decideProjection {P : Project → NodeId → Prop} [∀ j input, Decidable (P j input)] :
    (op : Operator) → (inputs : List NodeId) → Decidable (match op, inputs with
      | .project j, [input] => P j input
      | _, _ => True)
  | .project j, [input] => inferInstanceAs (Decidable (P j input))
  | .project _, [] | .project _, _ :: _ :: _ => .isTrue trivial
  | .scan _, _ | .materializedScan _, _ | .filter _, _ | .aggregate _, _ | .join _, _
  | .sort _, _ | .values _, _ | .modify _, _ | .tableFunction _, _ | .union _, _
  | .compound _, _ | .leftDeepJoin _, _ => .isTrue trivial

/-- A pass over groupings leaves a plan alone or marks an aggregate without calls. -/
theorem markNop_cases (hq : p.markNop id = .ok q) :
    q = p ∨ ∃ a, p.op id = .aggregate a ∧
      q = p.setOp id (.aggregate { a with isNop := true }) := by
  unfold markNop at hq
  split at hq
  · next a hop =>
    split at hq
    · obtain ⟨input, -, hq⟩ := Result.bind_eq_ok.mp hq
      split at hq
      · exact .inr ⟨a, hop, (Result.pure_eq_ok.mp hq).symm⟩
      · exact .inl (Result.pure_eq_ok.mp hq).symm
    · exact .inl (Except.ok.inj hq).symm
  · exact .inl (Except.ok.inj hq).symm

theorem markNop_wellFormed (h : p.WellFormed) (hid : id ∈ p.order) (hq : p.markNop id = .ok q) :
    q.WellFormed ∧ q.order = p.order ∧ SameShape p q := by
  rcases markNop_cases hq with rfl | ⟨a, hop, rfl⟩
  · exact ⟨h, rfl, .refl q⟩
  · have hlayout : (Operator.aggregate { a with isNop := true }).layout = (p.op id).layout := by
      rw [hop]
      rfl
    have harity : (Operator.aggregate { a with isNop := true }).arity = (p.op id).arity := by
      rw [hop]
      rfl
    have hfields := h.fieldsMatch id hid
    rw [hop] at hfields
    exact ⟨h.setOp hid hlayout harity hfields (fun e he => absurd he not_mem_nil)
      fun c hc => absurd hc not_mem_nil, rfl, .setOp (h.inArena hid) hlayout harity⟩

theorem markNops_wellFormed (h : p.WellFormed) (hq : p.markNops = .ok q) : q.WellFormed := by
  refine h.of_removals hq fun r r' id hr hid hstep => ?_
  obtain ⟨hr', horder, -⟩ := markNop_wellFormed hr hid hstep
  exact ⟨hr', nothing_removed horder⟩

/-- A projection that is told to be an identity reads all columns of an input that is no join. -/
theorem isIdentity_eq_ok_true (h : p.isIdentity id = .ok true) :
    ∃ j input, p.op id = .project j ∧ p.inputs id = [input] ∧ (p.op input).isJoin = false ∧
      p.width input = .ok j.exprs.length ∧
      ∀ e ∈ j.exprs, ∃ c, e = .column c ∧ c.source = input := by
  unfold isIdentity at h
  split at h
  · next j hop =>
    split at h
    · obtain ⟨input, hinput, h⟩ := Result.bind_eq_ok.mp h
      split at h
      · cases h
      · next hjoin =>
        obtain ⟨w, hw, h⟩ := Result.bind_eq_ok.mp h
        split at h
        · cases h
        · next hwidth =>
          refine ⟨j, input, hop, Node.singleInput_eq_ok.mp hinput, by simpa using hjoin, ?_, ?_⟩
          · have hlength : j.exprs.length = w := by simpa using hwidth
            rw [hw, hlength]
          · intro e he
            have hcolumn := all_eq_true.mp (Result.pure_eq_ok.mp h) e he
            split at hcolumn
            · exact ⟨_, rfl, by simpa using hcolumn⟩
            · cases hcolumn
    · cases h
  · cases h

theorem isIdenticalCopy_eq_ok_true {j : Project} (h : p.isIdenticalCopy id j = .ok true) :
    j.target = none ∧ p.isIdentity id = .ok true ∧ p.isRenaming id = .ok false ∧
      (((forwardMap j).any fun (i, k) => i != k) = true → p.hasPassThroughConsumer id = false) := by
  unfold isIdenticalCopy at h
  split at h
  · cases h
  · next htarget =>
    obtain ⟨identity, hidentity, h⟩ := Result.bind_eq_ok.mp h
    cases identity with
    | false => cases h
    | true =>
        obtain ⟨renames, hrenames, h⟩ := Result.bind_eq_ok.mp h
        cases renames with
        | true => cases h
        | false =>
            refine ⟨by simpa using htarget, hidentity, hrenames, fun hpermutes => ?_⟩
            have h := Result.pure_eq_ok.mp h
            rw [hpermutes] at h
            simpa using h

/-- A pass over copies leaves a plan alone or bypasses a projection to all columns of its
input. -/
theorem eliminateCopy_cases {root : Option NodeId} (hq : p.eliminateCopy root id = .ok q) :
    q = p ∨ ∃ j, p.op id = .project j ∧ root ≠ some id ∧ p.isIdenticalCopy id j = .ok true ∧
      p.bypass id (some (forwardMap j)) = .ok q := by
  unfold eliminateCopy at hq
  split at hq
  · next j hop =>
    split at hq
    · cases hq
      exact .inl rfl
    · next hroot =>
      obtain ⟨copy, hcopy, hq⟩ := Result.bind_eq_ok.mp hq
      cases copy with
      | false => exact .inl (Result.pure_eq_ok.mp hq).symm
      | true => exact .inr ⟨j, hop, hroot, hcopy, hq⟩
  · cases hq
    exact .inl rfl

/-- A copy is as wide as its input. -/
theorem Arranged.columnCount_of_isIdentity {l : List NodeId} (h : p.Arranged l) (hid : id ∈ l)
    (hidentity : p.isIdentity id = .ok true) {i : NodeId} (hi : p.inputs id = [i]) :
    p.columnCount id = p.columnCount i := by
  obtain ⟨j, input, hop, hinput, -, hwidth, -⟩ := isIdentity_eq_ok_true hidentity
  cases hi.symm.trans hinput
  have hlive : i ∈ l := h.mem_of_input hid (hi ▸ mem_singleton_self i)
  rw [h.width_eq hlive] at hwidth
  rw [Except.ok.inj hwidth, h.columnCount_eq hid, hop]
  rfl

theorem eliminateCopy_wellFormed {root : Option NodeId} (h : p.WellFormed) (hid : id ∈ p.order)
    (hq : p.eliminateCopy root id = .ok q) :
    q.WellFormed ∧ (q.order = p.order ∨ q.order = p.order.filter fun n => n != id) := by
  rcases eliminateCopy_cases hq with rfl | ⟨j, hop, -, hcopy, hq⟩
  · exact ⟨h, .inl rfl⟩
  · obtain ⟨-, hidentity, -⟩ := isIdenticalCopy_eq_ok_true hcopy
    obtain ⟨hwf, horder⟩ := h.bypass hid (by rw [hop]; rfl)
      (fun i hi => h.arranged.columnCount_of_isIdentity hid hidentity hi) hq
    exact ⟨hwf, .inr horder⟩

theorem eliminateCopies_wellFormed (h : p.WellFormed) (hq : p.eliminateCopies = .ok q) :
    q.WellFormed := by
  refine h.of_removals hq fun r r' id hr hid hstep => ?_
  obtain ⟨hr', horder⟩ := eliminateCopy_wellFormed hr hid hstep
  exact ⟨hr', only_self_removed horder⟩

/-! ### Sorts -/

theorem isRedundantSort_eq_ok_true {earlier later : NodeId}
    (h : p.isRedundantSort earlier later = .ok true) :
    ∃ s, p.op earlier = .sort s ∧ s.isPlain = true ∧ p.useCount earlier = 1 := by
  unfold isRedundantSort at h
  split at h
  · next s hop =>
    split at h
    · next hcond =>
      simp only [Bool.and_eq_true, beq_iff_eq] at hcond
      exact ⟨s, hop, hcond⟩
    · cases h
  · cases h

/-- A pass over sorts leaves a plan alone or bypasses the last sort before the node. What it
remembers is a sort that it has seen. -/
theorem simplifySort_cases {earlier later : Option NodeId}
    (hq : simplifySort (p, earlier) id = .ok (q, later)) :
    (q = p ∧ (later = some id ∨ later = earlier ∨ later = none)) ∨
      ∃ e, earlier = some e ∧ p.isRedundantSort e id = .ok true ∧ p.bypass e none = .ok q ∧
        later = some id := by
  unfold simplifySort at hq
  dsimp only at hq
  split at hq
  · split at hq
    · cases hq
      exact .inl ⟨rfl, .inl rfl⟩
    · next e =>
      obtain ⟨redundant, hredundant, hq⟩ := Result.bind_eq_ok.mp hq
      cases redundant with
      | false =>
          cases Result.pure_eq_ok.mp hq
          exact .inl ⟨rfl, .inl rfl⟩
      | true =>
          obtain ⟨r, hr, hq⟩ := Result.bind_eq_ok.mp hq
          cases Result.pure_eq_ok.mp hq
          exact .inr ⟨e, rfl, hredundant, hr, rfl⟩
  · cases hq
    refine .inl ⟨rfl, .inr ?_⟩
    split
    · exact .inl rfl
    · exact .inr rfl

theorem bypass_redundant_wellFormed {earlier later : NodeId} (h : p.WellFormed)
    (hearlier : earlier ∈ p.order) (hredundant : p.isRedundantSort earlier later = .ok true)
    (hq : p.bypass earlier none = .ok q) :
    q.WellFormed ∧ q.order = p.order.filter fun n => n != earlier := by
  obtain ⟨s, hop, -⟩ := isRedundantSort_eq_ok_true hredundant
  refine h.bypass hearlier (by rw [hop]; rfl) (fun i hi => ?_) hq
  exact h.arranged.columnCount_of_first hearlier (by rw [hop]; rfl) hi

/-- The pass over sorts after some of the live nodes: the others are still live, and so is the sort
that it remembers. -/
structure SortsSeen (p : Plan) (done : List NodeId) (s : Plan × Option NodeId) : Prop where
  live : ∀ x ∈ p.order, x ∉ done → x ∈ s.1.order
  earlier : ∀ e, s.2 = some e → e ∈ done ∧ e ∈ s.1.order

namespace SortsSeen

variable {done rest : List NodeId} {s : Plan × Option NodeId}

theorem start (p : Plan) : p.SortsSeen [] (p, none) := ⟨fun _ hx _ => hx, fun _ he => by cases he⟩

variable (h : p.SortsSeen done s) (hnodup : p.order.Nodup) (hsplit : p.order = done ++ id :: rest)
include h hnodup hsplit

/-- The next node is live. -/
theorem mem : id ∈ s.1.order ∧ id ∉ done := by
  have hid : id ∉ done := fun hdone =>
    (nodup_append.mp (hsplit ▸ hnodup)).2.2 id hdone id mem_cons_self rfl
  exact ⟨h.live id (by simp [hsplit]) hid, hid⟩

/-- The plan stays, and a sort is remembered that was seen. -/
theorem keep {later : Option NodeId} (hlater : later = some id ∨ later = s.2 ∨ later = none) :
    p.SortsSeen (done ++ [id]) (s.1, later) := by
  refine ⟨fun x hx hxdone => h.live x hx fun hd => hxdone (by simp [hd]), ?_⟩
  rintro e rfl
  rcases hlater with hlater | hlater | hlater
  · cases hlater
    exact ⟨by simp, (h.mem hnodup hsplit).1⟩
  · obtain ⟨hdone, he⟩ := h.earlier e hlater.symm
    exact ⟨by simp [hdone], he⟩
  · cases hlater

/-- The remembered sort goes, and the node takes its place. -/
theorem replace {e : NodeId} (he : s.2 = some e)
    (horder : q.order = s.1.order.filter fun n => n != e) :
    p.SortsSeen (done ++ [id]) (q, some id) := by
  obtain ⟨hid, hdone⟩ := h.mem hnodup hsplit
  have hedone := (h.earlier e he).1
  have hstays : ∀ x ∈ s.1.order, x ∉ done → x ∈ q.order := by
    intro x hx hxdone
    rw [horder, mem_filter]
    exact ⟨hx, by simpa using fun hxe : x = e => hxdone (hxe ▸ hedone)⟩
  refine ⟨fun x hx hxdone => ?_, ?_⟩
  · rw [mem_append, mem_singleton, not_or] at hxdone
    exact hstays x (h.live x hx hxdone.1) hxdone.1
  · rintro e' ⟨⟩
    exact ⟨by simp, hstays _ hid hdone⟩

end SortsSeen

/-- The pass over sorts bypasses redundant ones one after another. -/
theorem simplifySorts_induct {motive : Plan → Prop} (hnodup : p.order.Nodup)
    (hq : p.simplifySorts = .ok q) (start : motive p)
    (step : ∀ r r' earlier later, earlier ∈ r.order → later ∈ r.order → motive r →
      r.isRedundantSort earlier later = .ok true → r.bypass earlier none = .ok r' →
        motive r' ∧ r'.order = r.order.filter fun n => n != earlier) : motive q := by
  obtain ⟨⟨r, last⟩, hloop, hq⟩ := Result.bind_eq_ok.mp hq
  rw [← Result.pure_eq_ok.mp hq]
  refine (Result.foldlM_induct (motive := fun done (s : Plan × Option NodeId) =>
    motive s.1 ∧ p.SortsSeen done s) hloop ⟨start, .start p⟩ ?_).1
  rintro done a rest ⟨r, earlier⟩ ⟨r', later⟩ hsplit ⟨hmotive, hseen⟩ hstep
  rcases simplifySort_cases hstep with ⟨rfl, hlater⟩ | ⟨e, rfl, hredundant, hbypass, rfl⟩
  · exact ⟨hmotive, hseen.keep hnodup hsplit hlater⟩
  · obtain ⟨hmotive', horder⟩ :=
      step r r' e a (hseen.earlier e rfl).2 (hseen.mem hnodup hsplit).1 hmotive hredundant hbypass
    exact ⟨hmotive', hseen.replace hnodup hsplit rfl horder⟩

theorem simplifySorts_wellFormed (h : p.WellFormed) (hq : p.simplifySorts = .ok q) :
    q.WellFormed :=
  simplifySorts_induct h.nodup hq h fun _ _ _ _ hearlier _ hr hredundant hbypass =>
    bypass_redundant_wellFormed hr hearlier hredundant hbypass

/-! ### Filters -/

/-- A filter refers to what its condition refers to. -/
theorem columns_of_filter {f : Filter} (hop : p.op id = .filter f) :
    (p.op id).columns = f.condition.columns := by
  rw [hop]
  exact flatMap_singleton ..

/-- A pass over filters leaves a plan alone or lets a filter read the input of the filter below
it, which nothing else reads. -/
theorem foldFilter_cases (hq : p.foldFilter id = .ok q) :
    q = p ∨ ∃ f inner g input r, p.op id = .filter f ∧ p.inputs id = [inner] ∧
      p.op inner = .filter g ∧ p.useCount inner = 1 ∧ p.inputs inner = [input] ∧
      p.replaceInput id inner input none = .ok r ∧
      q = (r.mergeCondition id g.condition).remove inner := by
  unfold foldFilter at hq
  split at hq
  · next f hop =>
    obtain ⟨inner, hinner, hq⟩ := Result.bind_eq_ok.mp hq
    split at hq
    · next g hopInner =>
      split at hq
      · exact .inl (Result.pure_eq_ok.mp hq).symm
      · next huse =>
        obtain ⟨input, hinput, hq⟩ := Result.bind_eq_ok.mp hq
        obtain ⟨r, hr, hq⟩ := Result.bind_eq_ok.mp hq
        exact .inr ⟨f, inner, g, input, r, hop, Node.singleInput_eq_ok.mp hinner, hopInner,
          by simpa using huse, Node.singleInput_eq_ok.mp hinput, hr,
          (Result.pure_eq_ok.mp hq).symm⟩
    · exact .inl (Result.pure_eq_ok.mp hq).symm
  · cases hq
    exact .inl rfl

/-- Merging a condition into a filter changes nothing but the condition. -/
theorem mergeCondition_sameShape (hid : id.index < p.arena.size) (inner : Expr) :
    SameShape p (p.mergeCondition id inner) ∧ (p.mergeCondition id inner).order = p.order := by
  unfold Plan.mergeCondition
  split
  · next f hop =>
    exact ⟨.setOp hid (by rw [hop]; rfl) (by rw [hop]; rfl), rfl⟩
  · exact ⟨.refl p, rfl⟩

/-- A filter may get a condition in front of its own whose columns are in sight. -/
theorem WellFormed.mergeCondition (h : p.WellFormed) (hid : id ∈ p.order) {inner : Expr}
    (hbound : inner.hasPositional = false)
    (hreads : ∀ c ∈ inner.columns, c.source ∈ p.reads id ∧ c.index < p.columnCount c.source) :
    (p.mergeCondition id inner).WellFormed := by
  unfold Plan.mergeCondition
  split
  · next f hop =>
    have hown : ∀ c ∈ f.condition.columns,
        c.source ∈ p.reads id ∧ c.index < p.columnCount c.source := fun c hc =>
      h.reads_of_mem hid (by rw [hop]; simpa [Operator.columns, Operator.exprs] using hc)
    have hbound' : f.condition.hasPositional = false :=
      h.bound id hid _ (by rw [hop]; exact mem_singleton_self _)
    have hleaves : ∀ l ∈ (f.prepend inner).condition.leaves,
        l ∈ inner.leaves ∨ l ∈ f.condition.leaves := by
      intro l hl
      unfold Filter.prepend at hl
      dsimp only at hl
      cases hall : Expr.all? (inner.conjuncts ++ f.condition.conjuncts) with
      | none =>
          rw [hall] at hl
          exact .inr hl
      | some e =>
          rw [hall] at hl
          obtain ⟨d, hd, hl⟩ := Expr.exists_of_mem_leaves_all? hall hl
          rcases mem_append.mp hd with hd | hd
          · exact .inl (Expr.leaves_subset_of_mem_conjuncts hd hl)
          · exact .inr (Expr.leaves_subset_of_mem_conjuncts hd hl)
    refine h.setOp hid (by rw [hop]; rfl) (by rw [hop]; rfl) trivial ?_ ?_
    · simp only [Operator.exprs, mem_singleton, forall_eq, Expr.hasPositional_eq_false_iff]
        at hbound hbound' ⊢
      exact fun l hl => (hleaves l hl).elim (hbound l) (hbound' l)
    · simp only [Operator.columns, Operator.exprs, flatMap_singleton, Expr.mem_columns_iff]
        at hown hreads ⊢
      exact fun c hc => (hleaves _ hc).elim (hreads c) (hown c)
  · exact h

theorem foldFilter_wellFormed (h : p.WellFormed) (hid : id ∈ p.order)
    (hq : p.foldFilter id = .ok q) :
    q.WellFormed ∧ q.order <+ p.order ∧
      ∀ x ∈ p.order, x ∉ q.order → x = id ∨ [x, id] <+ p.order := by
  rcases foldFilter_cases hq with rfl |
    ⟨f, inner, g, input, r, hop, hinner, hopInner, huse, hinput, hr, rfl⟩
  · exact ⟨h, nothing_removed rfl⟩
  · have hread : inner ∈ p.inputs id := hinner ▸ mem_singleton_self inner
    have hpair := h.arranged.before id hid inner hread
    have hlive : inner ∈ p.order := mem_left hpair
    have hinput' : input ∈ p.inputs inner := hinput ▸ mem_singleton_self input
    have hpairInput := h.arranged.before inner hlive input hinput'
    have hidJoin : (p.op id).isJoin = false := by rw [hop]; rfl
    have hinnerJoin : (p.op inner).isJoin = false := by rw [hopInner]; rfl
    have hne : input ≠ id := ne_of_pair h.nodup (pair_sublist_trans h.nodup hpairInput hpair)
    have hred := replaceInput_redirection h.arranged (mem_left hpairInput) (h.inArena hid) hr
    have hcount := h.arranged.columnCount_of_first hlive (by rw [hopInner]; rfl) hinput
    have hjoins : ∀ n ∈ p.order, ∀ i ∈ p.inputs n, (p.op i).isJoin → inner ∈ p.inputs i →
        (i ∈ [id] ↔ n ∈ [id]) := by
      intro n hn i hi hiJoin hread'
      obtain rfl := reader_unique huse (h.arranged.mem_of_input hn hi) hread' hid hread
      rw [hidJoin] at hiJoin
      cases hiJoin
    obtain ⟨hrWf, hrCount⟩ := h.of_redirection_to_input hlive hinnerJoin hinput' hcount.symm hred
      (by simpa using hid) (by simpa using hne) hjoins
    -- The condition below refers to what the filter reads now.
    have hreads : ∀ c ∈ g.condition.columns,
        c.source ∈ r.reads id ∧ c.index < r.columnCount c.source := by
      intro c hc
      have hc : c ∈ (p.op inner).columns := by
        rw [hopInner]
        simpa [Operator.columns, Operator.exprs] using hc
      obtain ⟨hmem, hlt⟩ := h.reads_of_mem hlive hc
      rw [hrCount _ (h.arranged.reads_subset hlive hmem)]
      refine ⟨(mem_reads_of_not_join ((hred.op_isJoin id).trans hidJoin)).mpr
        ⟨input, hred.mem_inputs_new (mem_singleton_self id) hread, ?_⟩, hlt⟩
      rw [mem_reads_of_not_join hinnerJoin, hinput] at hmem
      simpa [hred.exposed_other (by simpa using hne)] using hmem
    have hbound : g.condition.hasPositional = false :=
      h.bound inner hlive _ (by rw [hopInner]; exact mem_singleton_self _)
    have hidLive : id ∈ r.order := hred.order_eq ▸ hid
    obtain ⟨hshape, horder⟩ := mergeCondition_sameShape (hrWf.inArena hidLive) g.condition
    rw [hred.order_eq] at horder
    refine ⟨(hrWf.mergeCondition hidLive hbound hreads).remove fun n hn _ => ?_, ?_⟩
    · rw [hshape.inputs_eq]
      by_cases hnid : n = id
      · rw [hnid]
        exact hred.not_mem_inputs_old (mem_singleton_self id) (ne_of_pair h.nodup hpairInput)
      · rw [hred.inputs_other (by simpa using hnid)]
        exact fun hmem => hnid (reader_unique huse (horder ▸ hn) hmem hid hread)
    · rw [order_remove, horder]
      refine ⟨filter_sublist, fun x hx hx' => .inr ?_⟩
      rw [mem_filter, not_and] at hx'
      obtain rfl : x = inner := by simpa using hx' hx
      exact hpair

theorem foldFilters_wellFormed (h : p.WellFormed) (hq : p.foldFilters = .ok q) :
    q.WellFormed :=
  h.of_removals hq fun _ _ _ hr hid hstep => foldFilter_wellFormed hr hid hstep

/-- A pass over cross joins leaves a plan alone, or moves some conjuncts of a filter into the
join below and leaves the filter with the others, if there are any. -/
theorem hoistCondition_cases (hq : p.hoistCondition id = .ok q) :
    q = p ∨ ∃ f joinId j condition, p.op id = .filter f ∧ p.inputs id = [joinId] ∧
      p.op joinId = .join j ∧ j.kind = .inner ∧ condition.leaves ⊆ f.condition.leaves ∧
      ((∃ remaining, remaining.leaves ⊆ f.condition.leaves ∧
          q = (p.setOp joinId (.join { j with condition := condition })).setOp id
            (.filter ⟨remaining⟩)) ∨
        (p.setOp joinId (.join { j with condition := condition })).bypass id none = .ok q) := by
  unfold hoistCondition at hq
  split at hq
  · next f hop =>
    obtain ⟨joinId, hjoinId, hq⟩ := Result.bind_eq_ok.mp hq
    split at hq
    · next j hopJoin =>
      split at hq
      · exact .inl (Result.pure_eq_ok.mp hq).symm
      · next hcond =>
        have hkind : j.kind = .inner := by
          rw [Bool.or_eq_true, Bool.or_eq_true, not_or, not_or, bne_iff_ne, not_not] at hcond
          exact hcond.1.1
        obtain ⟨leftId, -, hq⟩ := Result.bind_eq_ok.mp hq
        obtain ⟨left, -, hq⟩ := Result.bind_eq_ok.mp hq
        obtain ⟨rightId, -, hq⟩ := Result.bind_eq_ok.mp hq
        obtain ⟨right, -, hq⟩ := Result.bind_eq_ok.mp hq
        dsimp only at hq
        have hpart : ∀ {es : List Expr} {e : Expr}, es ⊆ f.condition.conjuncts →
            Expr.all? es = some e → e.leaves ⊆ f.condition.leaves := by
          intro es e hes he l hl
          obtain ⟨d, hd, hl⟩ := Expr.exists_of_mem_leaves_all? he hl
          exact Expr.leaves_subset_of_mem_conjuncts (hes hd) hl
        rw [partition_eq_filter_filter] at hq
        dsimp only at hq
        split at hq
        · exact .inl (Result.pure_eq_ok.mp hq).symm
        · next condition hcondition =>
          refine .inr ⟨f, joinId, j, condition, hop, Node.singleInput_eq_ok.mp hjoinId, hopJoin,
            hkind, hpart (filter_subset_self _) hcondition, ?_⟩
          split at hq
          · next remaining hremaining =>
            exact .inl ⟨remaining, hpart (filter_subset_self _) hremaining,
              (Result.pure_eq_ok.mp hq).symm⟩
          · exact .inr hq
    · exact .inl (Result.pure_eq_ok.mp hq).symm
  · cases hq
    exact .inl rfl

/-- A condition made from leaves of a filter may stand in every node that reads what the filter
reads. -/
theorem WellFormed.reads_of_leaves (h : p.WellFormed) (hid : id ∈ p.order) {f : Filter}
    (hop : p.op id = .filter f) {e : Expr} (he : e.leaves ⊆ f.condition.leaves) :
    e.hasPositional = false ∧
      ∀ c ∈ e.columns, c.source ∈ p.reads id ∧ c.index < p.columnCount c.source := by
  have hbound : f.condition.hasPositional = false :=
    h.bound id hid _ (by rw [hop]; exact mem_singleton_self _)
  rw [Expr.hasPositional_eq_false_iff] at hbound ⊢
  refine ⟨fun l hl => hbound l (he hl), fun c hc => h.reads_of_mem hid ?_⟩
  rw [hop]
  rw [Expr.mem_columns_iff] at hc
  simpa [Operator.columns, Operator.exprs, Expr.mem_columns_iff] using he hc

theorem hoistCondition_wellFormed (h : p.WellFormed) (hid : id ∈ p.order)
    (hq : p.hoistCondition id = .ok q) :
    q.WellFormed ∧ (q.order = p.order ∨ q.order = p.order.filter fun n => n != id) := by
  rcases hoistCondition_cases hq with rfl |
    ⟨f, joinId, j, condition, hop, hinputs, hopJoin, -, hcondition, hrest⟩
  · exact ⟨h, .inl rfl⟩
  · have hpair := h.arranged.before id hid joinId (hinputs ▸ mem_singleton_self joinId)
    have hjoinLive : joinId ∈ p.order := mem_left hpair
    have hne : id ≠ joinId := (ne_of_pair h.nodup hpair).symm
    have hreads : p.reads id = p.reads joinId := by
      rw [reads_of_input (by rw [hop]; rfl) hinputs,
        exposed_of_join (by rw [hopJoin]; rfl), reads_of_join (by rw [hopJoin]; rfl)]
    have hscope := fun {e : Expr} => h.reads_of_leaves hid hop (e := e)
    generalize hr : p.setOp joinId (.join { j with condition := condition }) = r at hrest
    have hlayout : (Operator.join { j with condition := condition }).layout =
        (p.op joinId).layout := by rw [hopJoin]; rfl
    have harity : (Operator.join { j with condition := condition }).arity =
        (p.op joinId).arity := by rw [hopJoin]; rfl
    have hshape : SameShape p r := hr ▸ .setOp (h.inArena hjoinLive) hlayout harity
    have hrWf : r.WellFormed := by
      subst hr
      refine h.setOp hjoinLive hlayout harity trivial ?_ ?_
      · simpa [Operator.exprs] using (hscope hcondition).1
      · simpa [Operator.columns, Operator.exprs, hreads] using (hscope hcondition).2
    have hrOrder : r.order = p.order := by rw [← hr, order_setOp]
    have hrOp : r.op id = .filter f := by
      rw [← hr, Plan.op, node_setOp_of_ne _ hne]
      exact hop
    rcases hrest with ⟨remaining, hremaining, rfl⟩ | hbypass
    · refine ⟨hrWf.setOp (hrOrder ▸ hid) (by rw [hrOp]; rfl) (by rw [hrOp]; rfl) trivial ?_ ?_,
        .inl (by rw [order_setOp, hrOrder])⟩
      · simpa [Operator.exprs] using (hscope hremaining).1
      · rw [hshape.reads_eq, hshape.columnCount_eq]
        simpa [Operator.columns, Operator.exprs] using (hscope hremaining).2
    · obtain ⟨hwf, horder⟩ := hrWf.bypass (hrOrder ▸ hid) (by rw [hrOp]; rfl)
        (fun i hi => hrWf.arranged.columnCount_of_first (hrOrder ▸ hid) (by rw [hrOp]; rfl) hi)
        hbypass
      exact ⟨hwf, .inr (by rw [horder, hrOrder])⟩

theorem hoistConditions_wellFormed (h : p.WellFormed) (hq : p.hoistConditions = .ok q) :
    q.WellFormed := by
  refine h.of_removals hq fun r r' id hr hid hstep => ?_
  obtain ⟨hr', horder⟩ := hoistCondition_wellFormed hr hid hstep
  exact ⟨hr', only_self_removed horder⟩

end Plan

end QueryPlan
