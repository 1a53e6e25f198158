import QueryPlan.Proofs.Scope.Pipeline
import QueryPlan.Proofs.Shape.Flattening
import QueryPlan.Proofs.Shape.Projections
/-!
# QueryPlan.Proofs.Shape.Pipeline

**The columns of a query are the same before and after the passes,** as long as two of the passes
do not rename what the root shows (`Plan.Harmless`): the elimination of copies, which takes a
projection for a copy of its input whatever the order and the names of its columns, and the
flattening of joins, which may come to a chain a second time.
-/

namespace QueryPlan

open List Plan

variable {p q r : Plan} {next next' : Nat}

/-- Whether a pass renames nothing that the root shows, whatever the plan. -/
def Pass.keepsNames : Pass → Bool
  | .eliminateCopies | .hoistConditions | .flattenJoins => false
  | _ => true

theorem Pass.rootNames {pass : Pass} (hpass : pass.keepsNames = true) (h : p.WellFormed)
    (hq : pass.apply p next = .ok (q, next')) : q.rootNames = p.rootNames := by
  cases pass with
  | markNops => exact markNops_rootNames h (Fresh.lift_eq_ok.mp hq).1
  | simplifySorts => exact simplifySorts_rootNames h (Fresh.lift_eq_ok.mp hq).1
  | foldFilters => exact foldFilters_rootNames h (Fresh.lift_eq_ok.mp hq).1
  | eliminateDeadColumns => exact eliminateDeadColumns_rootNames h (Fresh.lift_eq_ok.mp hq).1
  | separateWindows => exact separateWindows_rootNames h hq
  | narrowWindows => exact narrowWindows_rootNames h hq
  | fuseChains joinRoots => exact fuseChains_rootNames h hq
  | eliminateCopies | hoistConditions | flattenJoins => cases hpass

namespace Plan

theorem applyPasses_cons {pass : Pass} {passes : List Pass} {s : Plan × Nat} :
    p.applyPasses (pass :: passes) next = .ok s ↔
      ∃ r m, pass.apply p next = .ok (r, m) ∧ r.applyPasses passes m = .ok s := by
  obtain ⟨q, next'⟩ := s
  rw [applyPasses, foldlM_cons]
  exact Fresh.bind_eq_ok

theorem applyPasses_append {first second : List Pass} {s : Plan × Nat} :
    p.applyPasses (first ++ second) next = .ok s ↔
      ∃ r m, p.applyPasses first next = .ok (r, m) ∧ r.applyPasses second m = .ok s := by
  obtain ⟨q, next'⟩ := s
  rw [applyPasses, foldlM_append]
  exact Fresh.bind_eq_ok

theorem WellFormed.applyPasses_rootNames {passes : List Pass}
    (hpasses : ∀ pass ∈ passes, pass.keepsNames = true) (h : p.WellFormed)
    (hq : p.applyPasses passes next = .ok (q, next')) :
    q.WellFormed ∧ q.rootNames = p.rootNames := by
  refine Fresh.foldlM_keeps (motive := fun r => r.WellFormed ∧ r.rootNames = p.rootNames) hq
    ⟨h, rfl⟩ fun pass hpass r s _ _ hr hs => ?_
  have hkeeps := hpasses pass hpass
  exact ⟨pass.wellFormed (by rintro rfl; cases hkeeps) hr.1 hs,
    (pass.rootNames hkeeps hr.1 hs).trans hr.2⟩

/-- The passes before the flattening of joins. -/
def beforeFlattening (settings : Settings) (p : Plan) : Fresh Plan := do
  let p ← p.applyPasses [.markNops, .simplifySorts, .eliminateCopies, .foldFilters]
  p.applyPasses (p.middlePasses settings)

/-- Neither the elimination of copies nor the flattening of joins renames what the root shows, when
a plan is optimized. `WellFormed.harmless` has conditions on the plan itself that imply this. -/
def Harmless (settings : Settings) (p : Plan) (next : Nat) : Prop :=
  (∀ s, p.applyPasses [.markNops, .simplifySorts] next = .ok s → s.1.CopiesGiveWay) ∧
    ∀ s, p.beforeFlattening settings next = .ok s → s.1.ChainsGiveWay s.2

instance (settings : Settings) (p : Plan) (next : Nat) : Decidable (p.Harmless settings next) :=
  inferInstanceAs (Decidable (_ ∧ _))

/-- Conditions are moved only if no filter is the top of a chain of joins, and then there is none to
be moved. So the passes in the middle are the later ones. -/
theorem WellFormed.middlePasses_eq (h : p.WellFormed) (settings : Settings) (next : Nat) :
    p.applyPasses (p.middlePasses settings) next =
      p.applyPasses ([.eliminateDeadColumns, .separateWindows] ++
        (if settings.clusterMode then [.narrowWindows] else []) ++ [.fuseChains p.joinRoots])
        next := by
  rw [middlePasses, append_assoc, append_assoc, append_assoc]
  split
  · rfl
  · next hroots =>
    have hkept := hoistConditions_eq h (by simpa using hroots)
    rw [singleton_append, Plan.applyPasses, foldlM_cons]
    exact Fresh.bind_ok (Fresh.lift_ok hkept)

/-- The passes in the middle rename nothing. -/
theorem WellFormed.middlePasses_rootNames {settings : Settings} (h : p.WellFormed)
    (hq : p.applyPasses (p.middlePasses settings) next = .ok (q, next')) :
    q.WellFormed ∧ q.rootNames = p.rootNames := by
  rw [h.middlePasses_eq] at hq
  refine h.applyPasses_rootNames (fun pass hpass => ?_) hq
  cases hcluster : settings.clusterMode <;> rw [hcluster] at hpass <;>
    simp at hpass <;> rcases hpass with rfl | rfl | rfl | rfl <;> rfl

/-- Optimizing a plan keeps the names at its root, if it is harmless. -/
theorem WellFormed.optimize_rootNames {settings : Settings} (h : p.WellFormed)
    (hharmless : p.Harmless settings next) (hq : p.optimize settings next = .ok (q, next')) :
    q.Tidy ∧ q.rootNames = p.rootNames := by
  obtain ⟨a, m, ha, hq⟩ := Fresh.bind_eq_ok.mp hq
  obtain ⟨b, n, hb, hq⟩ := Fresh.bind_eq_ok.mp hq
  obtain ⟨_, n', hcheck, hq⟩ := Fresh.bind_eq_ok.mp hq
  obtain ⟨-, rfl⟩ := Fresh.lift_eq_ok.mp hcheck
  obtain ⟨q', last, hflatten, hq⟩ := applyPasses_cons.mp hq
  cases (Fresh.pure_eq_ok.mp hq).1
  have hbefore : p.beforeFlattening settings next = .ok (b, n) :=
    Fresh.bind_eq_ok.mpr ⟨a, m, ha, hb⟩
  have hsplit : p.applyPasses ([.markNops, .simplifySorts] ++ [.eliminateCopies, .foldFilters])
    next = .ok (a, m) := ha
  obtain ⟨c, k, hc, hsplit⟩ := applyPasses_append.mp hsplit
  obtain ⟨d, k', hd, hsplit⟩ := applyPasses_cons.mp hsplit
  obtain ⟨hcWf, hcNames⟩ := h.applyPasses_rootNames (by decide) hc
  have hdWf := Pass.wellFormed (nofun : Pass.eliminateCopies ≠ .flattenJoins) hcWf hd
  have hdNames := eliminateCopies_rootNames hcWf (hharmless.1 _ hc) (Fresh.lift_eq_ok.mp hd).1
  obtain ⟨haWf, haNames⟩ := hdWf.applyPasses_rootNames (by decide) hsplit
  obtain ⟨hbWf, hbNames⟩ := haWf.middlePasses_rootNames hb
  obtain ⟨hqTidy, hqNames⟩ := flattenJoins_rootNames hbWf (hharmless.2 _ hbefore) hflatten
  refine ⟨hqTidy, ?_⟩
  rw [hqNames, hbNames, haNames, hdNames, hcNames]

/-! ### The columns of a query -/

/-- Two plans have columns of the same names at their roots. -/
def SameColumns (p q : Plan) : Prop :=
  ∃ root root' width, p.root? = some root ∧ q.root? = some root' ∧
    p.width root = .ok width ∧ q.width root' = .ok width ∧
    ∀ column < width, ∃ name, p.fieldName root column = .ok name ∧
      q.fieldName root' column = .ok name

namespace Tidy

variable {root : NodeId}

theorem width_eq (h : p.Tidy) (hroot : root ∈ p.order) :
    p.width root = .ok (p.columnNames root).length := by
  rw [h.ordered.width_eq h.fed hroot, h.ordered.length_columnNames h.fieldsMatch root hroot]

theorem fieldName_eq (h : p.Tidy) (hroot : root ∈ p.order) (column : Nat)
    (hcolumn : column < (p.columnNames root).length) :
    p.fieldName root column = .ok (p.columnNames root)[column] :=
  h.ordered.fieldName_eq h.fed h.fieldsMatch hroot (getElem?_eq_getElem hcolumn)

/-- Columns of the same names are what the names of the columns of the roots say. -/
theorem sameColumns_iff (hp : p.Tidy) (hq : q.Tidy) (hroot : p.order ≠ []) :
    SameColumns p q ↔ q.rootNames = p.rootNames := by
  obtain ⟨root, hpRoot⟩ : ∃ root, p.root? = some root := by
    rw [root?, getLast?_eq_some_getLast hroot]
    exact ⟨_, rfl⟩
  have hlive : root ∈ p.order := mem_of_getLast? hpRoot
  have hpWidth := hp.width_eq hlive
  have hpName := hp.fieldName_eq hlive
  rw [rootNames, rootNames, hpRoot, Option.map_some]
  constructor
  · rintro ⟨a, root', width, ha, hqRoot, hpw, hqw, hnames⟩
    cases hpRoot.symm.trans ha
    have hlive' : root' ∈ q.order := mem_of_getLast? hqRoot
    have hqName := hq.fieldName_eq hlive'
    cases hpWidth.symm.trans hpw
    have hlength := Except.ok.inj ((hq.width_eq hlive').symm.trans hqw)
    rw [hqRoot, Option.map_some]
    refine congrArg some (ext_getElem hlength fun column hlt hlt' => ?_)
    obtain ⟨name, hname, hname'⟩ := hnames column hlt'
    rw [hpName column hlt'] at hname
    rw [hqName column hlt] at hname'
    exact Except.ok.inj (hname'.trans hname.symm)
  · intro hnames
    obtain ⟨root', hqRoot, hnames⟩ := Option.map_eq_some_iff.mp hnames
    have hlive' : root' ∈ q.order := mem_of_getLast? hqRoot
    have hqWidth := hq.width_eq hlive'
    have hqName := hq.fieldName_eq hlive'
    rw [hnames] at hqWidth
    refine ⟨root, root', _, hpRoot, hqRoot, hpWidth, hqWidth, fun column hlt => ?_⟩
    refine ⟨_, hpName column hlt, ?_⟩
    simp only [hnames] at hqName
    exact hqName column hlt

end Tidy

end Plan

namespace Query

/-- Optimizing the bound plan of a text is harmless. -/
def Harmless (env : Environment) (text : String) : Prop :=
  ∀ s, (documentOfText text >>= fun j =>
    boundOfDocument env (subqueryOfDocument env) j .start) = .ok s →
      s.1.Harmless env.settings s.2.nextId

instance (env : Environment) (text : String) : Decidable (Harmless env text) :=
  inferInstanceAs (Decidable (∀ _, _ → _))

end Query

/-- **Shape.** If optimizing the bound plan of a text is harmless, the optimized plan has the
columns of the bound one at its root. -/
theorem shape_kept {env : Environment} {text : String} {bound optimized : Query}
    (hbound : Query.unoptimizedOfText env text = .ok bound)
    (hoptimized : Query.ofText env text = .ok optimized) (hharmless : Query.Harmless env text) :
    SameColumns bound.plan optimized.plan := by
  obtain ⟨j, next, hj, hbuild⟩ := Query.unoptimizedOfText_eq_ok hbound
  obtain ⟨j', plan, next', last, hj', hbuild', hpasses⟩ := Query.ofText_eq_ok hoptimized
  cases hj.symm.trans hj'
  have hsame := Except.ok.inj (hbuild.symm.trans hbuild')
  obtain rfl : bound.plan = plan := congrArg Prod.fst hsame
  obtain rfl : next = next' := congrArg (·.2.nextId) hsame
  obtain ⟨hwf, hroot⟩ := boundOfDocument_wellFormed env _ j _ _ _ hbuild
  have hharmless := hharmless _ (Result.bind_eq_ok.mpr ⟨j, hj, hbuild⟩)
  obtain ⟨htidy, hnames⟩ := hwf.optimize_rootNames hharmless hpasses
  exact (hwf.tidy.sameColumns_iff htidy hroot).mpr hnames

/-- A filter over an inner join, which the passes make one node. -/
def joinedRows : String := Query.textOf
  ["\x7b\"rels\":[\x7b\"id\":0,\"relOp\":\"LogicalValues\",",
    "\"inputs\":[],\"tuples\":[],\"type\":[",
    "\x7b\"type\":\"BOOLEAN\",\"nullable\":true,", "\"name\":\"a\"\x7d,",
    "\x7b\"type\":\"BOOLEAN\",\"nullable\":true,", "\"name\":\"b\"\x7d]\x7d,",
    "\x7b\"id\":1,\"relOp\":\"LogicalValues\",",
    "\"inputs\":[],\"tuples\":[],\"type\":[",
    "\x7b\"type\":\"BOOLEAN\",\"nullable\":true,", "\"name\":\"x\"\x7d]\x7d,",
    "\x7b\"id\":2,\"relOp\":\"LogicalJoin\",\"inputs\":[\"0\",\"1\"],",
    "\"joinType\":\"inner\",\"condition\":\x7b\"input\":1\x7d\x7d,",
    "\x7b\"id\":3,\"relOp\":\"LogicalFilter\",", "\"condition\":\x7b\"input\":2\x7d\x7d]\x7d"]

/-- The filter and the join go, and the three columns stay. -/
theorem shape_kept_joinedRows :
    ∃ bound optimized, Query.unoptimizedOfText unchecked joinedRows = .ok bound ∧
      Query.ofText unchecked joinedRows = .ok optimized ∧
      (bound.plan.order.length = 4 ∧ optimized.plan.order.length = 3) ∧
      Query.Harmless unchecked joinedRows ∧ SameColumns bound.plan optimized.plan := by
  have hharmless : Query.Harmless unchecked joinedRows := by
    unfold Query.Harmless
    rw [Query.documentOfText, Json.ofText, Json.ofText?, joinedRows, Query.textOf,
      Json.Written.ofTextWithin?, String.toList_ofList]
    decide +kernel
  have hrun : (Query.unoptimizedOfText unchecked joinedRows >>= fun bound =>
      Query.ofText unchecked joinedRows >>= fun optimized => pure (bound, optimized)).holds
        (fun s => s.1.plan.order.length == 4 && s.2.plan.order.length == 3) = true := by
    rw [Query.unoptimizedOfText, Query.ofText, Query.documentOfText, Json.ofText, Json.ofText?,
      joinedRows, Query.textOf, Json.Written.ofTextWithin?, String.toList_ofList]
    decide +kernel
  obtain ⟨s, hs, hlengths⟩ := Result.holds_eq_true.mp hrun
  obtain ⟨bound, hbound, hs⟩ := Result.bind_eq_ok.mp hs
  obtain ⟨optimized, hoptimized, hs⟩ := Result.bind_eq_ok.mp hs
  cases Result.pure_eq_ok.mp hs
  exact ⟨bound, optimized, hbound, hoptimized, by simpa using hlengths, hharmless,
    shape_kept hbound hoptimized hharmless⟩

/-- A join of a projection that swaps two columns. The projection goes as a copy of its input. -/
def swappedRows : String := Query.textOf
  ["\x7b\"rels\":[\x7b\"id\":0,\"relOp\":\"LogicalValues\",",
    "\"inputs\":[],\"tuples\":[],\"type\":[",
    "\x7b\"type\":\"BOOLEAN\",\"nullable\":true,", "\"name\":\"a\"\x7d,",
    "\x7b\"type\":\"BOOLEAN\",\"nullable\":true,", "\"name\":\"b\"\x7d]\x7d,",
    "\x7b\"id\":1,\"relOp\":\"LogicalProject\",",
    "\"exprs\":[\x7b\"input\":1\x7d,\x7b\"input\":0\x7d],", "\"fields\":[\"b\",\"a\"]\x7d,",
    "\x7b\"id\":2,\"relOp\":\"LogicalJoin\",\"inputs\":[\"1\",\"0\"],",
    "\"joinType\":\"inner\",\"condition\":\x7b\"input\":0\x7d\x7d]\x7d"]

/-- The first column of the join is `b` before the passes and `a` after them. -/
theorem shape_changes_swappedRows :
    ∃ bound optimized, Query.unoptimizedOfText unchecked swappedRows = .ok bound ∧
      Query.ofText unchecked swappedRows = .ok optimized ∧
      ¬SameColumns bound.plan optimized.plan := by
  have hrun : (Query.unoptimizedOfText unchecked swappedRows >>= fun bound =>
      Query.ofText unchecked swappedRows >>= fun optimized => pure (bound, optimized)).holds
        (fun s => decide (∃ root ∈ s.1.plan.root?, ∃ root' ∈ s.2.plan.root?,
          s.1.plan.width root = .ok 4 ∧ s.1.plan.fieldName root 0 = .ok "b" ∧
            s.2.plan.fieldName root' 0 = .ok "a")) = true := by
    rw [Query.unoptimizedOfText, Query.ofText, Query.documentOfText, Json.ofText, Json.ofText?,
      swappedRows, Query.textOf, Json.Written.ofTextWithin?, String.toList_ofList]
    decide +kernel
  obtain ⟨s, hs, hnames⟩ := Result.holds_eq_true.mp hrun
  obtain ⟨bound, hbound, hs⟩ := Result.bind_eq_ok.mp hs
  obtain ⟨optimized, hoptimized, hs⟩ := Result.bind_eq_ok.mp hs
  cases Result.pure_eq_ok.mp hs
  obtain ⟨root, hroot, root', hroot', hwidth, hb, ha⟩ := of_decide_eq_true hnames
  refine ⟨bound, optimized, hbound, hoptimized, ?_⟩
  rintro ⟨r, r', width, hr, hr', hrw, -, hsame⟩
  cases hroot.symm.trans hr
  cases hroot'.symm.trans hr'
  cases hwidth.symm.trans hrw
  obtain ⟨name, hname, hname'⟩ := hsame 0 (by decide)
  have hba : "b" = "a" :=
    (Except.ok.inj (hb.symm.trans hname)).trans (Except.ok.inj (hname'.symm.trans ha))
  exact absurd hba (by decide)

end QueryPlan
