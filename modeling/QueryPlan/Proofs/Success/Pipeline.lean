import QueryPlan.Proofs.Shape.Pipeline
import QueryPlan.Proofs.Success.Flattening
import QueryPlan.Proofs.Success.Fusion
import QueryPlan.Proofs.Success.Pruning
import QueryPlan.Proofs.Success.Removal
import QueryPlan.Proofs.Success.Validity
import QueryPlan.Proofs.Success.Windows
/-!
# QueryPlan.Proofs.Success.Pipeline

**A bound plan whose operands are in range is accepted** (`Plan.OperandsInRange`), as long as two of the
passes find it as they take it (`Plan.Unshared`): the elimination of dead columns takes that the columns of
a projection come along one way, and the flattening of joins that no join under a filter has another
reader (`optimization_accepts`). A bound plan whose join is flattened twice is refused
(`optimization_refuses_twiceFilteredRows`).
-/

namespace QueryPlan

open List Plan

variable {p q : Plan}

/-- Whether a pass refuses no readable plan. -/
def Pass.acceptsReadable : Pass → Bool
  | .hoistConditions | .eliminateDeadColumns | .flattenJoins => false
  | _ => true

theorem Pass.apply_ok {pass : Pass} (hpass : pass.acceptsReadable = true) (h : p.Readable)
    (next : Nat) : ∃ q next', pass.apply p next = .ok (q, next') ∧ q.Readable := by
  have hlift : ∀ {x : Result Plan}, (∃ q, x = .ok q ∧ q.Readable) →
      ∃ q next', (liftM x : Fresh Plan) next = .ok (q, next') ∧ q.Readable :=
    fun ⟨q, hq, hreadable⟩ => ⟨q, next, Fresh.lift_ok hq, hreadable⟩
  cases pass with
  | markNops => exact hlift (markNops_ok h)
  | simplifySorts => exact hlift (simplifySorts_ok h)
  | eliminateCopies => exact hlift (eliminateCopies_ok h)
  | foldFilters => exact hlift (foldFilters_ok h)
  | separateWindows => exact separateWindows_ok h next
  | narrowWindows => exact narrowWindows_ok h next
  | fuseChains joinRoots => exact fuseChains_ok h joinRoots next
  | hoistConditions | eliminateDeadColumns | flattenJoins => cases hpass

namespace Plan

/-- A property that every pass keeps on readable plans. -/
def KeptByPasses (I : Plan → Prop) : Prop :=
  ∀ (pass : Pass) (r s : Plan) (n n' : Nat), r.Readable → I r → pass.apply r n = .ok (s, n') → I s

variable {I : Plan → Prop}

theorem Readable.applyPasses_induct (hI : KeptByPasses I) {passes : List Pass}
    (hpasses : ∀ pass ∈ passes, pass.acceptsReadable = true) (h : p.Readable) (hp : I p)
    (next : Nat) : ∃ q next', p.applyPasses passes next = .ok (q, next') ∧ q.Readable ∧ I q := by
  induction passes generalizing p next with
  | nil => exact ⟨p, next, rfl, h, hp⟩
  | cons pass passes ih =>
      obtain ⟨hpass, hpasses⟩ := forall_mem_cons.mp hpasses
      obtain ⟨r, n, hr, hrReadable⟩ := pass.apply_ok hpass h next
      obtain ⟨q, next', hq, hkept⟩ := ih hpasses hrReadable (hI pass p r next n h hp hr) n
      exact ⟨q, next', applyPasses_cons.mpr ⟨r, n, hr, hq⟩, hkept⟩

/-- The passes in the middle refuse no readable plan in which the columns of a projection come along
one way. -/
theorem Readable.middlePasses_induct (hI : KeptByPasses I) (h : p.Readable) (hp : I p)
    (honce : p.CarriesOnce) (settings : Settings) (next : Nat) :
    ∃ q next', p.applyPasses (p.middlePasses settings) next = .ok (q, next') ∧ q.Readable ∧
      I q := by
  obtain ⟨r, hr, hreadable⟩ := eliminateDeadColumns_ok h honce
  have happly : Pass.eliminateDeadColumns.apply p next = .ok (r, next) := Fresh.lift_ok hr
  have hpasses : ∀ pass ∈ (.separateWindows ::
      ((if settings.clusterMode then [.narrowWindows] else []) ++ [.fuseChains p.joinRoots]) :
        List Pass), pass.acceptsReadable = true := by
    cases settings.clusterMode <;> simp [Pass.acceptsReadable]
  obtain ⟨q, next', hq, hkept⟩ :=
    hreadable.applyPasses_induct hI hpasses (hI _ p r next next h hp happly) next
  refine ⟨q, next', ?_, hkept⟩
  rw [h.middlePasses_eq]
  exact applyPasses_cons.mpr ⟨r, next, happly, hq⟩

/-- The elimination of dead columns and the flattening of joins find what they take, when a plan is
optimized. -/
def Unshared (settings : Settings) (p : Plan) (next : Nat) : Prop :=
  (∀ s, p.applyPasses [.markNops, .simplifySorts, .eliminateCopies, .foldFilters] next = .ok s →
    s.1.CarriesOnce) ∧
  ∀ s, p.beforeFlattening settings next = .ok s → s.1.JoinsBelongToFilters

instance (settings : Settings) (p : Plan) (next : Nat) : Decidable (p.Unshared settings next) :=
  inferInstanceAs (Decidable (_ ∧ _))

/-- A readable plan is optimized to a readable one, if the passes find what they take. Every pass is
applied to a readable plan on the way. -/
theorem Readable.optimize_induct (hI : KeptByPasses I) {settings : Settings} (h : p.Readable)
    (hp : I p) {next : Nat} (hunshared : p.Unshared settings next) :
    ∃ q next', p.optimize settings next = .ok (q, next') ∧ q.Readable ∧ I q := by
  obtain ⟨a, m, ha, haReadable, haKept⟩ : ∃ a m, p.applyPasses
      [.markNops, .simplifySorts, .eliminateCopies, .foldFilters] next = .ok (a, m) ∧
        a.Readable ∧ I a :=
    h.applyPasses_induct hI (by decide) hp next
  obtain ⟨b, n, hb, hbReadable, hbKept⟩ :=
    haReadable.middlePasses_induct hI haKept (hunshared.1 _ ha) settings m
  have hbefore : p.beforeFlattening settings next = .ok (b, n) := (Fresh.bind_ok ha).trans hb
  obtain ⟨q, next', hq, hreadable⟩ := hbReadable.flattenJoins_ok (hunshared.2 _ hbefore) n
  refine ⟨q, next', ?_, hreadable, hI .flattenJoins b q n next' hbReadable hbKept hq⟩
  rw [h.arranged.toOrdered.optimize_eq]
  exact (Fresh.bind_ok ha).trans ((Fresh.bind_ok hb).trans
    (applyPasses_cons.mpr ⟨q, next', hq, rfl⟩))

theorem Readable.optimize_ok {settings : Settings} (h : p.Readable) {next : Nat}
    (hunshared : p.Unshared settings next) :
    ∃ q next', p.optimize settings next = .ok (q, next') ∧ q.Readable := by
  obtain ⟨q, next', hq, hreadable, -⟩ :=
    h.optimize_induct (I := fun _ => True) (fun _ _ _ _ _ _ _ _ => trivial) trivial hunshared
  exact ⟨q, next', hq, hreadable⟩

end Plan

namespace Query

/-- When the bound plan of a text is optimized, the passes find what they take. -/
def Unshared (env : Environment) (text : String) : Prop :=
  ∀ s, (documentOfText text >>= fun j =>
    boundOfDocument env (subqueryOfDocument env) j .start) = .ok s →
      s.1.Unshared env.settings s.2.nextId

instance (env : Environment) (text : String) : Decidable (Unshared env text) :=
  inferInstanceAs (Decidable (∀ _, _ → _))

end Query

/-- **Acceptance.** A text that has a bound plan has an optimized one, if group counts, operands and
sort fields of the bound plan are in range and the passes find what they take. -/
theorem optimization_accepts {env : Environment} {text : String} {bound : Query}
    (hbound : Query.unoptimizedOfText env text = .ok bound)
    (hrange : bound.plan.OperandsInRange) (hunshared : Query.Unshared env text) :
    ∃ optimized, Query.ofText env text = .ok optimized := by
  obtain ⟨j, next, hj, hbuild⟩ := Query.unoptimizedOfText_eq_ok hbound
  obtain ⟨read, hread, -, hbind⟩ := boundOfDocument_bind env _ j _ _ _ hbuild
  have hreadable := hread.readable hbind hrange
  have hfound := hunshared _ (Result.bind_eq_ok.mpr ⟨j, hj, hbuild⟩)
  obtain ⟨plan, next', hplan, hplanWf⟩ := hreadable.optimize_ok hfound
  exact ⟨⟨plan, bound.subqueries⟩, Query.ofText_eq_ok_iff.mpr
    ⟨j, bound.plan, next, next', hj, hbuild, hplan, fun _ => hplanWf.validate_ok⟩⟩

/-- A sort over a grouping over a filter over an inner join, whose left input is a projection to three
columns. -/
def groupedRows : String := Query.textOf
  ["\x7b\"rels\":[\x7b\"id\":0,\"relOp\":\"LogicalValues\",",
    "\"inputs\":[],\"tuples\":[],\"type\":[",
    "\x7b\"type\":\"BOOLEAN\",\"nullable\":true,", "\"name\":\"a\"\x7d,",
    "\x7b\"type\":\"BOOLEAN\",\"nullable\":true,", "\"name\":\"b\"\x7d]\x7d,",
    "\x7b\"id\":1,\"relOp\":\"LogicalProject\",",
    "\"exprs\":[\x7b\"input\":1\x7d,\x7b\"input\":0\x7d,\x7b\"input\":1\x7d],",
    "\"fields\":[\"b\",\"a\",\"c\"]\x7d,",
    "\x7b\"id\":2,\"relOp\":\"LogicalValues\",",
    "\"inputs\":[],\"tuples\":[],\"type\":[",
    "\x7b\"type\":\"BOOLEAN\",\"nullable\":true,", "\"name\":\"x\"\x7d]\x7d,",
    "\x7b\"id\":3,\"relOp\":\"LogicalJoin\",\"inputs\":[\"1\",\"2\"],",
    "\"joinType\":\"inner\",\"condition\":\x7b\"input\":0\x7d\x7d,",
    "\x7b\"id\":4,\"relOp\":\"LogicalFilter\",\"condition\":\x7b\"input\":3\x7d\x7d,",
    "\x7b\"id\":5,\"relOp\":\"LogicalAggregate\",\"group\":[0],\"aggs\":[",
    "\x7b\"agg\":\"COUNT\",\"distinct\":false,\"operands\":[3],\"type\":",
    "\x7b\"type\":\"BIGINT\",\"nullable\":false\x7d\x7d],\"fields\":[\"b\",\"n\"]\x7d,",
    "\x7b\"id\":6,\"relOp\":\"LogicalSort\",\"collation\":[",
    "\x7b\"field\":1,\"direction\":\"ASCENDING\",\"nulls\":\"LAST\"\x7d]\x7d]\x7d"]

/-- Of the three columns one stays, and the operand and the sort field are where they belong. -/
theorem optimization_accepts_groupedRows :
    ∃ bound, Query.unoptimizedOfText default groupedRows = .ok bound ∧
      bound.plan.OperandsInRange ∧ Query.Unshared default groupedRows ∧
      ∃ optimized, Query.ofText default groupedRows = .ok optimized := by
  have hrun : (Query.documentOfText groupedRows >>= fun j =>
      boundOfDocument default (subqueryOfDocument default) j .start).holds (fun s =>
        decide (s.1.OperandsInRange ∧ s.1.Unshared (default : Environment).settings s.2.nextId)) =
          true := by
    rw [Query.documentOfText, Json.ofText, Json.ofText?, groupedRows, Query.textOf,
      Json.Written.ofTextWithin?, String.toList_ofList]
    decide +kernel
  obtain ⟨s, hs, hgood⟩ := Result.holds_eq_true.mp hrun
  obtain ⟨hrange, hfound⟩ := of_decide_eq_true hgood
  have hunshared : Query.Unshared default groupedRows := fun t ht => by
    cases hs.symm.trans ht
    exact hfound
  obtain ⟨j, hj, hbuild⟩ := Result.bind_eq_ok.mp hs
  have hbound : Query.unoptimizedOfText default groupedRows = .ok ⟨s.1, s.2.subqueries⟩ :=
    Result.bind_eq_ok.mpr ⟨j, hj, Query.ofBuild_eq_ok.mpr ⟨s.2.nextId, hbuild⟩⟩
  exact ⟨_, hbound, hrange, hunshared, optimization_accepts hbound hrange hunshared⟩

/-- Two filters over one join, joined. -/
def twiceFilteredRows : String := Query.textOf
  ["\x7b\"rels\":[\x7b\"id\":0,\"relOp\":\"LogicalValues\",",
    "\"inputs\":[],\"tuples\":[],\"type\":[",
    "\x7b\"type\":\"BOOLEAN\",\"nullable\":true,", "\"name\":\"a\"\x7d]\x7d,",
    "\x7b\"id\":1,\"relOp\":\"LogicalValues\",",
    "\"inputs\":[],\"tuples\":[],\"type\":[",
    "\x7b\"type\":\"BOOLEAN\",\"nullable\":true,", "\"name\":\"x\"\x7d]\x7d,",
    "\x7b\"id\":2,\"relOp\":\"LogicalJoin\",\"inputs\":[\"0\",\"1\"],",
    "\"joinType\":\"inner\",\"condition\":\x7b\"input\":0\x7d\x7d,",
    "\x7b\"id\":3,\"relOp\":\"LogicalFilter\",\"inputs\":[\"2\"],",
    "\"condition\":\x7b\"input\":0\x7d\x7d,",
    "\x7b\"id\":4,\"relOp\":\"LogicalFilter\",\"inputs\":[\"2\"],",
    "\"condition\":\x7b\"input\":1\x7d\x7d,",
    "\x7b\"id\":5,\"relOp\":\"LogicalJoin\",\"inputs\":[\"3\",\"4\"],",
    "\"joinType\":\"inner\",\"condition\":\x7b\"input\":0\x7d\x7d]\x7d"]

/-- The flattening comes to the join twice. What it makes of it the second time has one input only,
so that one of the filters reads a node that nothing reaches. -/
theorem optimization_refuses_twiceFilteredRows :
    ∃ bound e, Query.unoptimizedOfText default twiceFilteredRows = .ok bound ∧
      bound.plan.OperandsInRange ∧ Query.ofText default twiceFilteredRows = .error e := by
  have hbound : (Query.unoptimizedOfText default twiceFilteredRows).holds
      (fun bound => decide bound.plan.OperandsInRange) = true := by
    rw [Query.unoptimizedOfText, Query.documentOfText, Json.ofText, Json.ofText?,
      twiceFilteredRows, Query.textOf, Json.Written.ofTextWithin?, String.toList_ofList]
    decide +kernel
  have hlost : ∀ s, (Query.documentOfText twiceFilteredRows >>= fun j =>
      boundOfDocument default (subqueryOfDocument default) j .start >>= fun s =>
        s.1.optimize (default : Environment).settings s.2.nextId) = .ok s →
      ∃ root ∈ s.1.root?, (∃ x ∈ s.1.inputs root, ∃ c ∈ (s.1.op x).columns, c.source = ⟨1⟩) ∧
        root ∈ s.1.order.filter (· ≠ ⟨1⟩) ∧ ∀ n ∈ s.1.order.filter (· ≠ ⟨1⟩), ∀ i ∈ s.1.inputs n,
          i ∈ s.1.order.filter (· ≠ ⟨1⟩) := by
    rw [Query.documentOfText, Json.ofText, Json.ofText?, twiceFilteredRows, Query.textOf,
      Json.Written.ofTextWithin?, String.toList_ofList]
    decide +kernel
  obtain ⟨bound, hbound, hrange⟩ := Result.holds_eq_true.mp hbound
  cases hquery : Query.ofText default twiceFilteredRows with
  | error e => exact ⟨bound, e, hbound, of_decide_eq_true hrange, rfl⟩
  | ok query =>
      exfalso
      obtain ⟨j, p, next, next', hj, hp, hpasses, hvalid⟩ := Query.ofText_eq_ok_iff.mp hquery
      obtain ⟨root, hroot, ⟨x, hx, c, hc, hsource⟩, hmem, hclosed⟩ := hlost (query.plan, next')
        (Result.bind_eq_ok.mpr ⟨j, hj, Result.bind_eq_ok.mpr ⟨_, hp, hpasses⟩⟩)
      have hreach := (((validate_eq_ok_iff hroot).mp (hvalid rfl)).2 x
        (.step hx (.refl x))).2 c hc
      have hlive := hreach.mem_of_closed hclosed hmem
      rw [hsource] at hlive
      simp at hlive

end QueryPlan
