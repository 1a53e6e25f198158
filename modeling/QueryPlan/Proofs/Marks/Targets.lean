import QueryPlan.Proofs.Marks.Fusion
import QueryPlan.Proofs.Numbering.Pipeline
/-!
# QueryPlan.Proofs.Marks.Targets

**The rows of an update or delete stay marked** (`target_marks_kept`). The projection below the
change carries a mark. It is never taken out or narrowed, and if it goes into a compound, it is the
last projection of the chain, from which the compound has its mark. The one exception is a window
function inside a larger expression: then the projection is taken apart, the mark stays with the
lower half, and the change reads the upper one (`target_marks_lost_numberedRow`).
-/

namespace QueryPlan

open List Plan

/-- The mark of an operator as one that gives the rows to be changed. -/
def Operator.target? : Operator → Option ModifyTarget
  | project j => j.target
  | compound c => c.target
  | _ => none

/-- The changes of tables in a plan, and the mark of one node, with whether a window function lies
inside of one of its expressions. -/
def View.mark (i : NodeId) : View (Modify ⊕ ModifyTarget × Bool) where
  see id
    | .modify m => some (.inl m)
    | .project j =>
      if id = i then j.target.map fun t => .inr (t, j.exprs.any Expr.embedsWindow) else none
    | .compound c => if id = i then c.target.map fun t => .inr (t, false) else none
    | _ => none
  isReader := Sum.isLeft
  see_mapColumns id op f := by
    cases op with
    | project j =>
        have hembeds : (j.exprs.map (Expr.mapColumns f)).any Expr.embedsWindow =
            j.exprs.any Expr.embedsWindow := by
          rw [any_map]
          exact congrArg _ (funext (Expr.embedsWindow_mapColumns f))
        simp only [Operator.mapExprs, hembeds]
    | _ => rfl
  see_mapPositions id op f := by cases op <;> rfl
  see_plain id op h := by
    cases op with
    | project j =>
        have htarget : j.target = none := Option.isNone_iff_eq_none.mp h
        simp [htarget]
    | modify m | compound c => cases h
    | _ => rfl
  see_default id := rfl
  isReader_project id j k h := by
    dsimp only at h
    split at h
    · obtain ⟨t, -, rfl⟩ := Option.map_eq_some_iff.mp h
      rfl
    · cases h

theorem View.see_mark_modify {i id : NodeId} {op : Operator} {m : Modify} :
    (View.mark i).see id op = some (.inl m) ↔ op = .modify m := by
  cases op <;> simp [View.mark]

theorem View.target?_of_see {i id : NodeId} {op : Operator} {t : ModifyTarget} {embeds : Bool}
    (h : (View.mark i).see id op = some (.inr (t, embeds))) : op.target? = some t := by
  cases op with
  | project _ | compound _ =>
      change (if id = i then _ else none) = _ at h
      split at h
      · obtain ⟨t', htarget, heq⟩ := Option.map_eq_some_iff.mp h
        cases heq
        exact htarget
      · cases h
  | _ => cases h

/-- A view of nothing still shows which nodes are live. -/
def View.blind : View Empty where
  see _ _ := none
  isReader _ := false
  see_mapColumns _ _ _ := rfl
  see_mapPositions _ _ _ := rfl
  see_plain _ _ _ := rfl
  see_default _ := rfl
  isReader_project _ _ _ _ := rfl

namespace Plan

variable {p q : Plan} {n id last : NodeId} {m : Modify} {t : ModifyTarget} {next next' : Nat}

/-- A change of a table reads a node that is marked, and that no pass takes apart. -/
def ReadsMark (p : Plan) (m : Modify) (t : ModifyTarget) (n : NodeId) : Prop :=
  ∃ i, p.op n = .modify m ∧ p.inputs n = [i] ∧
    (View.mark i).see i (p.op i) = some (.inr (t, false))

theorem ReadsMark.of_keeps (h : p.ReadsMark m t n) (hkeeps : ∀ i, p.inputs n = [i] →
    (View.mark i).see i (p.op i) = some (.inr (t, false)) → Keeps (View.mark i) p q) :
    q.ReadsMark m t n := by
  obtain ⟨i, hop, hinputs, hmark⟩ := h
  have hkeeps := hkeeps i hinputs hmark
  have hmodify : (View.mark i).see n (p.op n) = some (.inl m) := View.see_mark_modify.mpr hop
  refine ⟨i, View.see_mark_modify.mp ((hkeeps.see_eq n).trans hmodify), ?_,
    (hkeeps.see_eq i).trans hmark⟩
  exact hkeeps.inputs_eq n _ i hmodify rfl hinputs (by rw [hmark]; exact nofun)

/-- A projection that is not taken apart keeps its mark while others are. -/
theorem Keeps.mark_separateWindows {i : NodeId} (hq : p.separateWindows next = .ok (q, next'))
    (hmark : (View.mark i).see i (p.op i) = some (.inr (t, false))) : Keeps (View.mark i) p q := by
  refine .separateWindows hq fun id j hsee hfound j' => ?_
  by_cases hid : id = i
  · subst hid
    rw [hmark] at hsee
    change (if id = id then _ else none) = _ at hsee
    rw [found_splitWindows] at hfound
    rw [if_pos rfl, hfound] at hsee
    obtain ⟨t', -, heq⟩ := Option.map_eq_some_iff.mp hsee
    cases heq
  · exact if_neg hid

/-- A projection in a chain gives the compound its own mark. -/
theorem fuseProject_target {f g : Fusion} {j : Project} (hf : p.fuseProject g id j = .ok f) :
    f.compound.target = j.target := by
  rcases fuseProject_cases hf with ⟨-, targets, sources, -, rfl⟩ | ⟨-, exprs, -, rfl⟩ <;> rfl

/-- If a chain ends with a marked projection, its compound is marked. -/
theorem fuseNode_target {f g : Fusion} (hf : p.fuseNode g id = .ok f)
    (h : (p.op id).target? = some t) : f.compound.target = some t := by
  obtain ⟨k, hk, rfl⟩ := fuseNode_eq_ok.mp hf
  cases hop : p.op id with
  | project j =>
      rw [hop] at h hk
      exact (fuseProject_target hk).trans h
  | compound c =>
      rw [hop] at hk
      cases hk
  | _ =>
      rw [hop] at h
      cases h

/-- As long as a change of a table is live, it reads a node that is marked. -/
structure KeepsMark (p : Plan) (m : Modify) (t : ModifyTarget) (n : NodeId) : Prop where
  lt_size : n.index < p.arena.size
  reads : n ∈ p.order → p.ReadsMark m t n

theorem KeepsMark.of_keeps (h : p.KeepsMark m t n) (hblind : Keeps View.blind p q)
    (hkeeps : ∀ i, (View.mark i).see i (p.op i) = some (.inr (t, false)) →
      Keeps (View.mark i) p q) : q.KeepsMark m t n where
  lt_size := Nat.lt_of_lt_of_le h.lt_size hblind.size_le
  reads hn := (h.reads (hblind.live n hn h.lt_size)).of_keeps fun i _ => hkeeps i

theorem Ordered.replaceChain_keepsMark {joinRoots ids : List NodeId} {stage : ChainStage}
    {first : NodeId} (hp : p.Ordered p.order) (h : p.KeepsMark m t n)
    (hchain : p.Chained joinRoots ids stage) (hlast : ids.getLast? = some last)
    (hq : p.replaceChain ids first last next = .ok (q, next')) : q.KeepsMark m t n := by
  obtain ⟨f, -, hf, -, hfused⟩ := hp.fused hchain hlast hq
  obtain ⟨g, hlastNode⟩ := exists_fuseNode_last hf hlast
  refine ⟨Nat.lt_of_lt_of_le h.lt_size hfused.size_le, fun hn => ?_⟩
  have hne : n ≠ p.nextId := Plan.ne_nextId h.lt_size
  obtain ⟨hlive, hnids⟩ := hfused.live n hn hne
  obtain ⟨i, hop, hinputs, hmark⟩ := h.reads hlive
  have hmodify : q.op n = .modify m := View.see_mark_modify.mp
    ((hfused.see_eq (v := View.mark i) hlive hnids).trans (View.see_mark_modify.mpr hop))
  -- The projection is no part of the chain, or it is the last node and the compound has its mark.
  rcases hfused.reads hn hne hinputs with ⟨hiids, hread⟩ | ⟨rfl, hread⟩
  · have hilive := hp.mem_of_input hlive (hinputs ▸ mem_singleton_self i)
    exact ⟨i, hmodify, hread, (hfused.see_eq hilive hiids).trans hmark⟩
  · refine ⟨p.nextId, hmodify, hread, ?_⟩
    have htarget := fuseNode_target hlastNode (View.target?_of_see hmark)
    rw [hfused.op_new]
    change (if p.nextId = p.nextId then f.compound.target.map _ else none) = _
    rw [if_pos rfl, htarget]
    rfl

/-- Every pass keeps the mark. -/
theorem KeepsMark.apply {pass : Pass} (hp : p.Ordered p.order) (h : p.KeepsMark m t n)
    (hq : pass.apply p next = .ok (q, next')) : q.KeepsMark m t n := by
  cases pass with
  | markNops =>
      have hq := (Fresh.lift_eq_ok.mp hq).1
      exact h.of_keeps (.markNops hq fun _ _ => rfl) fun _ _ => .markNops hq fun _ _ => rfl
  | separateWindows =>
      exact h.of_keeps (.separateWindows hq fun _ _ _ _ _ => rfl)
        fun _ hmark => .mark_separateWindows hq hmark
  | fuseChains joinRoots =>
      exact hp.fuseChains_keeps (motive := fun r => r.KeepsMark m t n) h
        (fun _ _ _ _ _ _ _ _ hr hkeeps hchain _ hlast hs =>
          hr.replaceChain_keepsMark hkeeps hchain hlast hs) hq
  | _ => exact h.of_keeps (Pass.keeps rfl hp hq) fun _ _ => Pass.keeps rfl hp hq

end Plan

/-- **Targets stay marked.** In an optimized plan a change of a table reads a projection or a compound
with the mark that the projection below it had in the bound plan, unless a window function lies
inside of one of the expressions of that projection. -/
theorem target_marks_kept {env : Environment} {d : Json} {s s' : BuildState} {bound p : Plan}
    {next : Nat}
    (hbound : Plan.boundOfDocument env (Plan.subqueryOfDocument env) d s = .ok (bound, s'))
    (hoptimize : bound.optimize env.settings s'.nextId = .ok (p, next)) :
    ∀ n ∈ p.order, ∀ m i j t, bound.op n = .modify m → bound.inputs n = [i] →
      bound.op i = .project j → j.target = some t → j.exprs.any Expr.embedsWindow = false →
      p.op n = .modify m ∧ ∃ i' ∈ p.order, p.inputs n = [i'] ∧ (p.op i').target? = some t := by
  intro n hn m i j t hop hinputs hproject htarget hwhole
  have hordered := (boundOfDocument_wellFormed _ _ d s bound s' hbound).1.arranged.toOrdered
  have hmark : (View.mark i).see i (bound.op i) = some (.inr (t, false)) := by
    rw [hproject]
    change (if i = i then j.target.map _ else none) = _
    rw [if_pos rfl, htarget, hwhole]
    rfl
  have hstart : bound.KeepsMark m t n := by
    refine ⟨lt_size_of_op_ne ?_, fun _ => ⟨i, hop, hinputs, hmark⟩⟩
    rw [hop]
    nofun
  have hkept := hordered.optimize_induct (motive := fun r => r.KeepsMark m t n) hstart
    (fun _ _ _ _ _ hr hkeeps hs => hkeeps.apply hr hs) hoptimize
  obtain ⟨i', hop', hinputs', hmark'⟩ := hkept.reads hn
  have hlive := (hordered.optimize hoptimize).mem_of_input hn (hinputs' ▸ mem_singleton_self i')
  exact ⟨hop', i', hlive, hinputs', View.target?_of_see hmark'⟩

/-- An environment with a table to be changed, in which finished plans are not checked. -/
def withTable : Environment := { unchecked with catalog := ⟨[⟨1, "t", [], false⟩]⟩ }

/-- Deletes what a projection of the rows on which `a` holds gives. -/
def deletionOf (expr : Json) : Json := .object [("rels", .array
  [rowsOfA,
    .object [("id", .integer 1), ("relOp", .string "LogicalFilter"),
      ("condition", .object [("input", .integer 0)])],
    .object [("id", .integer 2), ("relOp", .string "LogicalProject"),
      ("exprs", .array [expr]), ("fields", .array [.string "b"])],
    .object [("id", .integer 3), ("relOp", .string "LogicalTableModify"),
      ("table", .array [.string "s", .string "t"]), ("operation", .string "DELETE"),
      ("flattened", .bool false)]])]

/-- The sum of a column and the number of the row. -/
def numberedRow : Json :=
  let bound (unbounded : Bool) : Json := .object [("offset", .null), ("unbounded", .bool unbounded),
    ("preceding", .bool unbounded), ("following", .bool false),
    ("is_current_row", .bool !unbounded), ("order_key", .integer 0)]
  let type : Json := .object [("type", .string "BIGINT"), ("nullable", .bool true)]
  .object [("op", .string "+"), ("type", type), ("operands", .array
    [.object [("input", .integer 0)],
      .object [("op", .string "ROW_NUMBER"), ("type", type), ("operands", .array []),
        ("partition_keys", .array []), ("order_keys", .array []), ("lower_bound", bound true),
        ("upper_bound", bound false), ("is_rows", .bool true)]])]

/-- The bound query of a deletion and the optimized one. -/
def deletionBuilds (expr : Json) : Result (Query × Query) := do
  return (← Query.unoptimized withTable (deletionOf expr),
    ← Query.ofDocument withTable (deletionOf expr))

/-- Whether a node changes a table and another one is a projection of some kind. -/
def Plan.modifiesOver (p : Plan) (n i : NodeId) (test : Project → Bool) : Bool :=
  match p.op n, p.op i with
  | .modify _, .project j => test j
  | _, _ => false

theorem Plan.modifiesOver_eq_true {p : Plan} {n i : NodeId} {test : Project → Bool}
    (h : p.modifiesOver n i test = true) :
    ∃ m j, p.op n = .modify m ∧ p.op i = .project j ∧ test j = true := by
  unfold modifiesOver at h
  split at h
  · next m j hmodify hproject => exact ⟨m, j, hmodify, hproject, h⟩
  · cases h

/-- The projection goes into a compound, which has its mark. -/
theorem target_marks_kept_filteredRows :
    ∃ bound query t i, deletionBuilds (.object [("input", .integer 0)]) = .ok (bound, query) ∧
      bound.plan.inputs ⟨3⟩ = [⟨2⟩] ∧ (bound.plan.op ⟨2⟩).target? = some t ∧
      query.plan.inputs ⟨3⟩ = [i] ∧ i ≠ ⟨2⟩ ∧ (query.plan.op i).target? = some t := by
  have hrun : (deletionBuilds (.object [("input", .integer 0)])).holds (fun r =>
      r.2.plan.order.contains ⟨3⟩ && r.1.plan.inputs ⟨3⟩ == [⟨2⟩] &&
        r.2.plan.inputs ⟨3⟩ == [⟨4⟩] && r.1.plan.modifiesOver ⟨3⟩ ⟨2⟩ fun j =>
          j.target.isSome && !j.exprs.any Expr.embedsWindow) = true := by
    decide +kernel
  obtain ⟨⟨bound, query⟩, hresult, htest⟩ := Result.holds_eq_true.mp hrun
  simp only [Bool.and_eq_true, contains_iff_mem, beq_iff_eq] at htest
  obtain ⟨⟨⟨hlive, hread⟩, hread'⟩, hkind⟩ := htest
  obtain ⟨m, j, hmodify, hproject, hkind⟩ := Plan.modifiesOver_eq_true hkind
  simp only [Bool.and_eq_true, Bool.not_eq_true'] at hkind
  obtain ⟨t, htarget⟩ := Option.isSome_iff_exists.mp hkind.1
  obtain ⟨_, hunoptimized, hrest⟩ := Result.bind_eq_ok.mp hresult
  obtain ⟨_, hquery, hrest⟩ := Result.bind_eq_ok.mp hrest
  cases Result.pure_eq_ok.mp hrest
  obtain ⟨last, hbound⟩ := Query.ofBuild_eq_ok.mp hunoptimized
  obtain ⟨next, hquery⟩ := Query.ofBuild_eq_ok.mp hquery
  obtain ⟨p, s, hp, hfinish⟩ := Build.bind_eq_ok.mp hquery
  cases hbound.symm.trans hp
  obtain ⟨⟨next', hoptimize, -⟩, -⟩ := Query.finish_eq_ok.mp hfinish
  obtain ⟨-, i, -, hinputs, hmark⟩ := target_marks_kept hbound hoptimize ⟨3⟩ hlive m ⟨2⟩ j t
    hmodify hread hproject htarget hkind.2
  obtain rfl := (cons.inj (hread'.symm.trans hinputs)).1
  exact ⟨bound, query, t, ⟨4⟩, hresult, hread, by rw [hproject]; exact htarget, hread', by decide,
    hmark⟩

/-- A projection with a sum over a window function is taken apart, and the deletion reads the half
without the mark. -/
theorem target_marks_lost_numberedRow :
    ∃ bound query t j, deletionBuilds numberedRow = .ok (bound, query) ∧
      ⟨3⟩ ∈ query.plan.order ∧ bound.plan.inputs ⟨3⟩ = [⟨2⟩] ∧
      (bound.plan.op ⟨2⟩).target? = some t ∧ (∃ m, query.plan.op ⟨3⟩ = .modify m) ∧
      query.plan.inputs ⟨3⟩ = [⟨4⟩] ∧ query.plan.op ⟨4⟩ = .project j ∧ j.target = none := by
  have hrun : (deletionBuilds numberedRow).holds (fun r =>
      r.2.plan.order.contains ⟨3⟩ && r.1.plan.inputs ⟨3⟩ == [⟨2⟩] &&
        (r.1.plan.op ⟨2⟩).target?.isSome && r.2.plan.inputs ⟨3⟩ == [⟨4⟩] &&
        r.2.plan.modifiesOver ⟨3⟩ ⟨4⟩ fun j => j.target.isNone) = true := by
    decide +kernel
  obtain ⟨⟨bound, query⟩, hresult, htest⟩ := Result.holds_eq_true.mp hrun
  simp only [Bool.and_eq_true, contains_iff_mem, beq_iff_eq] at htest
  obtain ⟨⟨⟨⟨hlive, hread⟩, htarget⟩, hread'⟩, hkind⟩ := htest
  obtain ⟨m, j, hmodify, hproject, hnone⟩ := Plan.modifiesOver_eq_true hkind
  obtain ⟨t, ht⟩ := Option.isSome_iff_exists.mp htarget
  exact ⟨bound, query, t, j, hresult, hlive, hread, ht, ⟨m, hmodify⟩, hread', hproject,
    Option.isNone_iff_eq_none.mp hnone⟩

end QueryPlan
