import QueryPlan.Proofs.ChainFusion.Inlining
import QueryPlan.Proofs.Operator.Traversal
import QueryPlan.Proofs.Scope.ChainWalk
/-!
# QueryPlan.Proofs.ChainFusion.Stopping

**What can stop the program while it fuses a chain.** A step of the pass comes back, with a plan or
with a refusal, unless it replaces sources that lead back to themselves (`Plan.Circular`). Everything
else that it does comes back, whatever the plan: the widths of nodes are found on bounded walks, no
text is written, and what is missing is refused.
-/

namespace QueryPlan

open List

namespace Result

variable {α β σ : Type} {P : Prop} {cause : Cause}

/-- If the computation stops the program, the condition holds. -/
def StopsOnlyIf (P : Prop) (x : Result α) : Prop := ∀ e, x = .error e → e.isFatal = true → P

/-- The computation comes back, with a value or with a refusal. -/
abbrev Returns (x : Result α) : Prop := StopsOnlyIf False x

theorem Returns.stopsOnlyIf {x : Result α} (h : Returns x) : StopsOnlyIf P x :=
  fun e he hfatal => (h e he hfatal).elim

namespace StopsOnlyIf

theorem ok {a : α} : StopsOnlyIf P (.ok a : Result α) := nofun

theorem bind {x : Result α} {f : α → Result β} (hx : StopsOnlyIf P x)
    (hf : ∀ a, x = .ok a → StopsOnlyIf P (f a)) : StopsOnlyIf P (x >>= f) := fun e h =>
  (bind_eq_error.mp h).elim (hx e) fun ⟨a, ha, h⟩ => hf a ha e h

theorem fail (h : cause.tier ≠ .fatal) : StopsOnlyIf P (fail cause : Result α) := by
  rintro e ⟨⟩ hfatal
  exact absurd (beq_iff_eq.mp hfatal) h

theorem ofOption {o : Option α} (h : cause.tier ≠ .fatal) : StopsOnlyIf P (ofOption cause o) := by
  cases o with
  | none => exact fail h
  | some a => exact ok

theorem ensure {condition : Bool} (h : cause.tier ≠ .fatal) :
    StopsOnlyIf P (ensure condition cause) := by
  cases condition with
  | false => exact fail h
  | true => exact ok

theorem mapM {f : α → Result β} {as : List α} (h : ∀ a ∈ as, StopsOnlyIf P (f a)) :
    StopsOnlyIf P (as.mapM f) := fun e he =>
  let ⟨a, ha, he⟩ := mapM_eq_error he
  h a ha e he

/-- A loop stops the program only where one of its steps does. -/
theorem foldlM {f : σ → α → Result σ} {as : List α} {s : σ}
    (h : ∀ pre a post t, as = pre ++ a :: post → pre.foldlM f s = .ok t → StopsOnlyIf P (f t a)) :
    StopsOnlyIf P (as.foldlM f s) := by
  induction as generalizing s with
  | nil => exact ok
  | cons a as ih =>
      rw [foldlM_cons]
      refine .bind (h [] a as s rfl rfl) fun t ht => ih fun pre b post u hsplit hu => ?_
      refine h (a :: pre) b post u (congrArg (a :: ·) hsplit) ?_
      rw [foldlM_cons, bind_ok ht]
      exact hu

/-- A step that carries a state along, and what follows it. -/
theorem run_bind {x : StateT σ Result α} {f : α → StateT σ Result β} {s : σ}
    (hx : StopsOnlyIf P (x.run s))
    (hf : ∀ a t, x.run s = .ok (a, t) → StopsOnlyIf P ((f a).run t)) :
    StopsOnlyIf P ((x >>= f).run s) :=
  bind hx fun (a, t) => hf a t

theorem run_mapM {f : α → StateT σ Result β} {as : List α} {s : σ}
    (h : ∀ a ∈ as, ∀ t, StopsOnlyIf P ((f a).run t)) : StopsOnlyIf P ((as.mapM f).run s) := by
  induction as generalizing s with
  | nil => exact ok
  | cons a as ih =>
      rw [mapM_cons]
      refine run_bind (h a mem_cons_self s) fun _ _ _ => run_bind (ih fun b hb => ?_) fun _ _ _ => ok
      exact h b (mem_cons_of_mem _ hb)

/-- A step that leaves the state alone. -/
theorem run_lift {x : Result α} {s : σ} (h : StopsOnlyIf P x) :
    StopsOnlyIf P ((monadLift x : StateT σ Result α).run s) :=
  bind h fun _ _ => ok

end StopsOnlyIf

end Result

open Result

namespace Expr

theorem mapColumnsM_stops {P : Prop} {f : ColumnRef → Result ColumnRef} {e : Expr}
    (h : ∀ c ∈ e.columns, StopsOnlyIf P (f c)) : StopsOnlyIf P (e.mapColumnsM f) := by
  intro err herr
  refine StopsOnlyIf.mapM h err ?_
  rw [← columns_mapColumnsM, herr]
  rfl

end Expr

theorem Operator.mapExprsM_stops {P : Prop} {f : Expr → Result Expr} {op : Operator}
    (h : ∀ e ∈ op.exprs, StopsOnlyIf P (f e)) : StopsOnlyIf P (op.mapExprsM f) := by
  intro err herr
  refine StopsOnlyIf.mapM h err ?_
  rw [← exprs_mapExprsM, herr]
  rfl

theorem Node.input_returns (n : Node) (place : Nat) : Returns (n.input place) := .ofOption nofun

theorem Node.singleInput_returns (n : Node) : Returns n.singleInput := by
  unfold Node.singleInput
  split
  · exact .ok
  · exact .fail nofun

namespace Plan

variable {p : Plan}

/-! ### Reading and redirecting -/

theorem widthWithin_returns (fuel : Nat) (id : NodeId) : Returns (p.widthWithin fuel id) := by
  induction fuel generalizing id with
  | zero => exact .fail nofun
  | succ fuel ih =>
      cases hop : (p.op id).layout with
      | own width names =>
          rw [widthWithin_own hop]
          exact .ok
      | first =>
          rw [widthWithin_first hop]
          exact .bind ((p.node id).input_returns 0) fun i _ => ih i
      | all =>
          rw [widthWithin_all hop]
          exact .bind (.mapM fun i _ => ih i) fun _ _ => .ok

theorem output_returns (id : NodeId) : Returns (p.output id) := by
  cases hop : (p.op id).isJoin with
  | true =>
      rw [output_of_join hop]
      refine .bind (.mapM fun i _ => ?_) fun _ _ => .ok
      exact .bind (widthWithin_returns _ i) fun _ _ => .ok
  | false =>
      rw [output_of_not_join hop]
      exact .bind (widthWithin_returns _ id) fun _ _ => .ok

/-- To read another node comes back, as long as no column is given another position. -/
theorem replaceInput_returns (node old new : NodeId) :
    Returns (p.replaceInput node old new none) := by
  unfold replaceInput
  simp only [Option.isSome_none, Bool.and_false, Bool.false_eq_true, if_false]
  refine .bind ?_ fun columns _ => .bind ?_ fun _ _ => .bind .ok fun _ _ => .ok
  · unfold replacementColumns
    split
    · exact output_returns new
    · exact .bind (widthWithin_returns _ new) fun _ _ => .ok
  · refine Operator.mapExprsM_stops fun e _ => Expr.mapColumnsM_stops fun c _ => ?_
    unfold redirectColumn
    split
    · exact .bind .ok fun _ _ => .ofOption nofun
    · exact .ok

theorem replaceInputEverywhere_returns (old new : NodeId) :
    Returns (p.replaceInputEverywhere old new none) :=
  .foldlM fun _ node _ _ _ _ => replaceInput_returns node old new

theorem replaceInOrder_returns (old new : NodeId) : Returns (p.replaceInOrder old new) :=
  .bind (.ofOption nofun) fun _ _ => .ok

end Plan

/-! ### Sources that have no end -/

namespace Fusion

variable {f : Fusion} {last : NodeId} {sources : List Expr} {targets : List CompoundTarget}
  {e : Expr} {es : List Expr} {j : Project}

/-- An expression refers to the last node, and the sources, with those that the expressions before
it add to them, lead from there back to themselves. -/
def Circles (last : NodeId) (sources : List Expr) (e : Expr) : Prop :=
  ∃ more i, ⟨last, i⟩ ∈ e.columns ∧ ReachesCycle (Refers last (sources ++ more)) i

/-- The replacement stops the program exactly for want of an end. -/
theorem inlineSources_stops (depth : Nat) (e : Expr) :
    StopsOnlyIf (GivesUp last sources depth e) (inlineSources last sources depth e) := by
  suffices ∀ err, inlineSources last sources depth e = .error err → err.isFatal = true →
      err = .of .endlessSources from fun err herr hfatal => by
    rw [GivesUp, herr, this err herr hfatal]
    rfl
  induction depth generalizing e with
  | zero =>
      rintro _ ⟨⟩ -
      rfl
  | succ depth ih =>
      intro err herr hfatal
      obtain ⟨l, -, hl⟩ := Expr.mapLeavesM_eq_error herr
      split at hl
      · next c =>
        split at hl
        · have hsource : Returns (ofOption (.fusedSource c.index) sources[c.index]?) :=
            .ofOption nofun
          rcases bind_eq_error.mp hl with hl | ⟨s, -, hl⟩
          · exact (hsource err hl hfatal).elim
          · split at hl
            · cases hl
            · exact ih s err hl hfatal
        · cases hl
      · cases hl

theorem targetOf_returns (h : e.isColumn = true) : Returns (targetOf targets e) := by
  obtain ⟨c, rfl⟩ := Expr.exists_of_isColumn h
  exact .ofOption nofun

theorem addTarget_stops (e : Expr) :
    StopsOnlyIf (Circles last sources e) ((addTarget targets last e).run sources) := by
  unfold addTarget
  split
  · next hcolumn => exact .run_lift (targetOf_returns hcolumn).stopsOnlyIf
  · refine .run_bind .ok fun a t hget => ?_
    obtain ⟨rfl, rfl⟩ := Prod.mk.inj (Except.ok.inj hget)
    refine .run_bind (.run_lift fun err herr hfatal => ?_) fun _ _ _ => .run_bind .ok fun _ _ _ => .ok
    obtain ⟨i, hi, hcycle⟩ := (inlineSources_stops _ e err herr hfatal).reachesCycle
    exact ⟨[], i, hi, by rwa [append_nil]⟩

theorem addTarget_mapM_stops :
    StopsOnlyIf (∃ e ∈ es, Circles last sources e)
      ((es.mapM (addTarget targets last)).run sources) := by
  induction es generalizing sources with
  | nil => exact .ok
  | cons e es ih =>
      rw [mapM_cons]
      refine .run_bind (fun err herr hfatal => ?_) fun t sources' ht =>
        .run_bind (fun err herr hfatal => ?_) fun _ _ _ => .ok
      · exact ⟨e, mem_cons_self, addTarget_stops e err herr hfatal⟩
      · obtain ⟨e', he', more, i, hi, hcycle⟩ := ih err herr hfatal
        refine ⟨e', mem_cons_of_mem _ he', ?_⟩
        rcases addTarget_eq_ok ht with ⟨rfl, -⟩ | ⟨source, -, rfl, -⟩
        · exact ⟨more, i, hi, hcycle⟩
        · exact ⟨source :: more, i, hi, by rwa [append_assoc] at hcycle⟩

end Fusion

namespace Plan

open Fusion

variable {p : Plan} {f : Fusion} {id : NodeId} {chain : List NodeId}

/-- On the way to its compound a chain comes to a projection with an expression for which the
sources have no end. -/
def Circular (p : Plan) (chain : List NodeId) : Prop :=
  ∃ pre id post f j last, chain = pre ++ id :: post ∧ pre.foldlM p.fuseNode .start = .ok f ∧
    p.op id = .project j ∧ f.lastNode = some last ∧
    ∃ e ∈ j.exprs, Circles last f.compound.sources e

theorem readThroughFilter_returns (filter : NodeId) (exprs : List Expr) :
    Returns (p.readThroughFilter filter exprs) := by
  refine .bind (Node.singleInput_returns _) fun i _ => .bind (output_returns i) fun _ _ => ?_
  refine .mapM fun e _ => Expr.mapColumnsM_stops fun c _ => ?_
  split
  · exact .ofOption nofun
  · exact .ok

theorem fuseProject_stops (j : Project) :
    StopsOnlyIf (∃ last, f.lastNode = some last ∧ ∃ e ∈ j.exprs, Circles last f.compound.sources e)
      (p.fuseProject f id j) := by
  unfold fuseProject
  dsimp only
  split
  · unfold addTargets
    dsimp only
    split
    · next hsimple =>
      refine .bind (.mapM fun e he => (targetOf_returns ?_).stopsOnlyIf) fun _ _ => .ok
      exact all_eq_true.mp hsimple e he
    · refine .bind (.ofOption nofun) fun last hlast => .bind ?_ fun _ _ => .ok
      exact fun err herr hfatal =>
        ⟨last, required_eq_ok.mp hlast, addTarget_mapM_stops err herr hfatal⟩
  · refine .bind (Node.singleInput_returns _).stopsOnlyIf fun input _ => ?_
    split
    · exact .bind (readThroughFilter_returns _ _).stopsOnlyIf fun _ _ => .ok
    · exact .ok

theorem fuseNode_stops :
    StopsOnlyIf (∃ j last, p.op id = .project j ∧ f.lastNode = some last ∧
      ∃ e ∈ j.exprs, Circles last f.compound.sources e) (p.fuseNode f id) := by
  unfold fuseNode
  cases hop : p.op id with
  | filter g => exact .bind (.bind (.ensure nofun) fun _ _ => .ok) fun _ _ => .ok
  | project j =>
      refine .bind (fun err herr hfatal => ?_) fun _ _ => .ok
      obtain ⟨last, hlast, hcircles⟩ := fuseProject_stops j err herr hfatal
      exact ⟨j, last, rfl, hlast, hcircles⟩
  | aggregate a => exact .bind (.bind (.ensure nofun) fun _ _ => .ok) fun _ _ => .ok
  | _ => exact .bind (.fail nofun) fun _ _ => .ok

/-- To make the compound of a chain stops the program only if the sources have no end. -/
theorem fuseChain_stops : StopsOnlyIf (p.Circular chain) (p.fuseChain chain) := by
  refine .bind (.foldlM fun pre id post f hsplit hf err herr hfatal => ?_) fun _ _ => .ok
  obtain ⟨j, last, hop, hlast, hcircles⟩ := fuseNode_stops err herr hfatal
  exact ⟨pre, id, post, f, j, last, hsplit, hf, hop, hlast, hcircles⟩

theorem replaceChain_stops (first last : NodeId) (next : Nat) :
    StopsOnlyIf (p.Circular chain) (p.replaceChain chain first last next) := by
  unfold replaceChain
  refine .run_bind (.run_lift fuseChain_stops) fun compound _ _ => ?_
  refine .run_bind (.run_lift (Node.singleInput_returns _).stopsOnlyIf) fun input _ _ => ?_
  refine .run_bind .ok fun buildId _ _ => ?_
  refine .run_bind (.run_lift (replaceInOrder_returns _ _).stopsOnlyIf) fun q _ _ => ?_
  exact .run_lift (replaceInputEverywhere_returns _ _).stopsOnlyIf

end Plan

namespace ChainWalk

/-- A fusion stops the program only if the sources of its chain have no end. -/
theorem fuse_stops (w : ChainWalk) (next : Nat) :
    StopsOnlyIf (∃ chain, (∀ id ∈ chain, some id ∈ w.slots) ∧ w.plan.Circular chain)
      (w.fuse next) := by
  unfold fuse
  refine .run_bind (.run_lift (.ensure nofun)) fun _ _ _ =>
    .run_bind (.run_mapM fun i _ _ => .run_lift (.ofOption nofun)) fun ids _ hids => ?_
  split
  · next first rest _ _ _ _ =>
    refine .run_bind (fun err herr hfatal => ?_) fun _ _ _ => .ok
    refine ⟨first :: rest, fun id hid => ?_, Plan.replaceChain_stops _ _ _ err herr hfatal⟩
    obtain ⟨i, -, hi⟩ := mapM_mem_right (Fresh.mapM_lift.mp hids).1 hid
    exact mem_of_getElem? (nodeAt_eq_some.mp (required_eq_ok.mp hi))
  · exact .ok

end ChainWalk

end QueryPlan
