import QueryPlan.Proofs.Document.Relation
import QueryPlan.Proofs.Numbering.Documents
import QueryPlan.Proofs.Numbering.Growth
/-!
# QueryPlan.Proofs.Numbering.Reading

**What reading an entry of a plan document does to a build.** It builds the subqueries in the
expressions of the entry, one after another, and does nothing else: it takes no number itself, and it
depends on what builds subqueries at their documents only. The expressions that are read show these
subqueries, in this order (`Expr.ofDocument_reads`, `Relation.nodeOf_reads`).
-/

namespace QueryPlan

open List

/-- A step that is given what builds subqueries. It builds those of some documents, in order, and
has no other effect; `Shows` says how its outcome shows them. -/
structure Build.Reads {α : Type} (m : Expr.PlanBuilder → Build α) (docs : List Json)
    (Shows : α → List Subquery → Prop) : Prop where
  congr : ∀ b b', (∀ d ∈ docs, b d = b' d) → m b = m b'
  run : ∀ {b s a s'}, m b s = .ok (a, s') → ∃ shown, docs.mapM b s = .ok (shown, s') ∧ Shows a shown

namespace Build.Reads

variable {α β : Type} {m m' : Expr.PlanBuilder → Build α} {f : α → Expr.PlanBuilder → Build β}
  {docs docs' : List Json} {R : α → List Subquery → Prop} {Q : β → List Subquery → Prop}

theorem pure {a : α} (h : R a []) : Reads (fun _ => Pure.pure a) [] R where
  congr _ _ _ := rfl
  run hrun := by
    obtain ⟨rfl, rfl⟩ := pure_eq_ok.mp hrun
    exact ⟨[], rfl, h⟩

/-- Building one subquery. -/
theorem build (d : Json) : Reads (fun b => b d) [d] fun query shown => [query] = shown where
  congr _ _ h := h d (mem_singleton_self d)
  run hrun := ⟨_, bind_eq_ok.mpr ⟨_, _, hrun, rfl⟩, rfl⟩

/-- A step that may refuse, and what follows. -/
theorem check {x : Result α} (h : ∀ a, x = .ok a → Reads (f a) docs Q) :
    Reads (fun b => liftM x >>= fun a => f a b) docs Q where
  congr b b' hagree := by
    cases x with
    | ok a => exact (h a rfl).congr b b' hagree
    | error e => rfl
  run hrun := by
    obtain ⟨a, t, hx, hrun⟩ := bind_eq_ok.mp hrun
    obtain ⟨ha, rfl⟩ := lift_eq_ok.mp hx
    exact (h a ha).run hrun

theorem fail {cause : Cause} : Reads (fun _ => liftM (Result.fail cause : Result α)) docs R where
  congr _ _ _ := rfl
  run hrun := absurd (lift_eq_ok.mp hrun).1 Result.fail_ne_ok

theorem bind (hm : Reads m docs R)
    (hf : ∀ a shown, R a shown → Reads (f a) docs' fun c shown' => Q c (shown ++ shown')) :
    Reads (fun b => m b >>= fun a => f a b) (docs ++ docs') Q where
  congr b b' hagree := by
    rw [hm.congr b b' fun d hd => hagree d (mem_append_left _ hd)]
    funext s
    refine Result.bind_congr fun r hr => ?_
    obtain ⟨shown, -, hshown⟩ := hm.run hr
    exact congrFun ((hf r.1 shown hshown).congr b b' fun d hd => hagree d (mem_append_right _ hd)) r.2
  run hrun := by
    obtain ⟨a, t, ha, hc⟩ := bind_eq_ok.mp hrun
    obtain ⟨shown, hbuilt, hshown⟩ := hm.run ha
    obtain ⟨shown', hbuilt', hshown'⟩ := (hf a shown hshown).run hc
    refine ⟨shown ++ shown', ?_, hshown'⟩
    rw [mapM_append]
    exact bind_eq_ok.mpr ⟨shown, t, hbuilt, bind_eq_ok.mpr ⟨shown', _, hbuilt', rfl⟩⟩

theorem mono (h : Reads m docs R) {R' : α → List Subquery → Prop}
    (himp : ∀ a shown, R a shown → R' a shown) : Reads m docs R' where
  congr := h.congr
  run hrun := by
    obtain ⟨shown, hbuilt, hshown⟩ := h.run hrun
    exact ⟨shown, hbuilt, himp _ _ hshown⟩

theorem ite {c : Bool} (hthen : c = true → Reads m docs R) (helse : c = false → Reads m' docs R) :
    Reads (fun b => if c then m b else m' b) docs R := by
  cases c with
  | true => exact hthen rfl
  | false => exact helse rfl

/-- A list of steps that show what each of them builds. -/
theorem mapM {γ : Type} {ks : List γ} {g : Expr.PlanBuilder → γ → Build α} {nested : γ → List Json}
    {refs : α → List Subquery}
    (h : ∀ k ∈ ks, Reads (fun b => g b k) (nested k) fun a shown => refs a = shown) :
    Reads (fun b => ks.mapM (g b)) (ks.flatMap nested) fun as shown => as.flatMap refs = shown := by
  induction ks with
  | nil =>
      simp only [mapM_nil]
      exact .pure rfl
  | cons k ks ih =>
      simp only [mapM_cons, flatMap_cons]
      refine .bind (h k mem_cons_self) ?_
      rintro a _ rfl
      rw [← append_nil (ks.flatMap nested)]
      refine .bind (ih fun k hk => h k (mem_cons_of_mem _ hk)) ?_
      rintro as _ rfl
      exact .pure (by simp)

/-- A loop in which each step shows what it builds behind what was shown before. -/
theorem foldlM {σ γ : Type} {ks : List γ} {g : Expr.PlanBuilder → σ → γ → Build σ}
    {nested : γ → List Json} {refs : σ → List Subquery}
    (h : ∀ s, ∀ k ∈ ks, Reads (fun b => g b s k) (nested k) fun t shown =>
      refs t = refs s ++ shown) (s : σ) :
    Reads (fun b => ks.foldlM (g b) s) (ks.flatMap nested) fun t shown =>
      refs t = refs s ++ shown := by
  induction ks generalizing s with
  | nil =>
      simp only [foldlM_nil]
      exact .pure (append_nil _).symm
  | cons k ks ih =>
      simp only [foldlM_cons, flatMap_cons]
      refine .bind (h s k mem_cons_self) ?_
      intro t shown ht
      refine (ih (fun s k hk => h s k (mem_cons_of_mem _ hk)) t).mono fun u shown' hu => ?_
      rw [hu, ht, append_assoc]

end Build.Reads

namespace Expr

open Build (Reads)

/-- An expression shows what was built for it. -/
abbrev Showing (e : Expr) (shown : List Subquery) : Prop := e.subqueries = shown

theorem subqueryOfDocument_reads (j : Json) :
    Reads (fun b => subqueryOfDocument b j) [j.member "subquery"] Showing := by
  unfold subqueryOfDocument
  refine .check fun _ _ => .check fun _ _ => .check fun nested hnested => ?_
  rw [Json.member_of_field hnested]
  have hleaf : ∀ type : Option SqlType,
      Reads (fun b => do return .leaf (.subquery (← b nested) type)) [nested] Showing := by
    intro type
    rw [← append_nil [nested]]
    refine .bind (.build nested) ?_
    rintro query _ rfl
    exact .pure rfl
  cases j.get? "type" with
  | none => exact hleaf none
  | some type =>
      cases type with
      | null => exact hleaf none
      | _ => exact .check fun type _ => hleaf (some type)

section

variable {read : PlanBuilder → Json → Build Expr} {nested : Json → List Json}

theorem boundOfDocument_reads (hnull : nested .null = [])
    (hread : ∀ j, Reads (fun b => read b j) (nested j) Showing) (j : Json) :
    Reads (fun b => boundOfDocument (read b) j) (nested (j.member "offset"))
      fun r shown => r.2.flatMap subqueries = shown := by
  unfold boundOfDocument
  refine .check fun offset hoffset => ?_
  rw [Json.member_of_field hoffset]
  have hrest : ∀ (es : List Expr) (Q : FrameBound × List Expr → List Subquery → Prop),
      (∀ bound, Q (bound, es) []) → Reads (fun _ => do
        let unbounded ← (← j.field "unbounded").asBool
        let preceding ← (← j.field "preceding").asBool
        let following ← (← j.field "following").asBool
        let currentRow ← (← j.field "is_current_row").asBool
        let orderKey ← (← j.field "order_key").asInt
        return ((⟨unbounded, preceding, following, currentRow, !es.isEmpty, orderKey⟩ : FrameBound),
          es)) [] Q := fun es Q hQ =>
    .check fun _ _ => .check fun _ _ => .check fun _ _ => .check fun _ _ => .check fun _ _ =>
      .check fun _ _ => .check fun _ _ => .check fun _ _ => .check fun _ _ => .check fun _ _ =>
        .pure (hQ _)
  have hsome : ∀ e : Json, Reads (fun b => do
      let offset ← do pure [← read b e]
      let unbounded ← (← j.field "unbounded").asBool
      let preceding ← (← j.field "preceding").asBool
      let following ← (← j.field "following").asBool
      let currentRow ← (← j.field "is_current_row").asBool
      let orderKey ← (← j.field "order_key").asInt
      return ((⟨unbounded, preceding, following, currentRow, !offset.isEmpty, orderKey⟩ : FrameBound),
        offset)) (nested e) fun r shown => r.2.flatMap subqueries = shown := by
    intro e
    simp only [pure_bind]
    rw [← append_nil (nested e)]
    refine .bind (hread e) ?_
    rintro e' _ rfl
    exact hrest [e'] _ fun bound => by simp
  cases offset with
  | null =>
      rw [hnull]
      exact hrest [] _ fun _ => rfl
  | _ => exact hsome _

theorem orderKeyOfDocument_reads (hread : ∀ j, Reads (fun b => read b j) (nested j) Showing)
    (j : Json) (place : Nat) :
    Reads (fun b => orderKeyOfDocument (read b) j place) (nested (j.member "field"))
      fun r shown => r.1.subqueries = shown := by
  unfold orderKeyOfDocument
  refine .check fun key hkey => ?_
  rw [Json.member_of_field hkey, ← append_nil (nested key)]
  refine .bind (hread key) ?_
  rintro e _ rfl
  exact .check fun _ _ => .pure (by simp)

theorem windowOfDocument_reads (hnull : nested .null = [])
    (hread : ∀ j, Reads (fun b => read b j) (nested j) Showing) (name : String)
    (operands : List Expr) (type : SqlType) (j : Json) :
    Reads (fun b => windowOfDocument (read b) name operands type j) (nestedInWindow nested j)
      fun e shown => e.subqueries = operands.flatMap subqueries ++ shown := by
  unfold windowOfDocument nestedInWindow
  refine .check fun _ _ => .check fun partition hpartition => .check fun partitionKeys hkeys => ?_
  rw [Json.elementsOf_of_field hpartition hkeys]
  refine .bind (.mapM fun k _ => hread k) ?_
  rintro partition _ rfl
  refine .check fun order horder => .check fun orderKeys hkeys => ?_
  have hzip : (j.elementsOf "order_keys").flatMap (fun key => nested (key.member "field")) =
      orderKeys.zipIdx.flatMap fun key => nested (key.1.member "field") := by
    rw [Json.elementsOf_of_field horder hkeys, ← zipIdx_map_fst 0 orderKeys, flatMap_map,
      zipIdx_map_fst]
  rw [hzip]
  refine .bind (.mapM fun k _ => orderKeyOfDocument_reads hread k.1 k.2) ?_
  rintro order _ rfl
  refine .check fun lower hlower => ?_
  rw [Json.member_of_field hlower]
  refine .bind (boundOfDocument_reads hnull hread lower) ?_
  rintro lower _ rfl
  refine .check fun upper hupper => ?_
  rw [Json.member_of_field hupper, ← append_nil (nested (upper.member "offset"))]
  refine .bind (boundOfDocument_reads hnull hread upper) ?_
  rintro upper _ rfl
  refine .check fun _ _ => .check fun _ _ => .pure ?_
  simp [flatMap_append, flatMap_map]

theorem caseOfDocument_reads (hread : ∀ j, Reads (fun b => read b j) (nested j) Showing) (j : Json) :
    Reads (fun b => caseOfDocument (read b) j) ((j.elementsOf "operands").flatMap nested)
      Showing := by
  unfold caseOfDocument
  refine .check fun operands hoperands => .check fun ks hks => .check fun _ _ => ?_
  rw [Json.elementsOf_of_field hoperands hks, ← append_nil (ks.flatMap nested)]
  refine .bind (.mapM fun k _ => hread k) ?_
  rintro es _ rfl
  exact .pure (by simp [Showing])

theorem applicationOfDocument_reads (hnull : nested .null = [])
    (hread : ∀ j, Reads (fun b => read b j) (nested j) Showing) (name : String) (j : Json) :
    Reads (fun b => applicationOfDocument b (read b) name j)
      ((j.elementsOf "operands").flatMap nested ++
        ((if name == ScalarOp.isIn.name && j.has "subquery" then [j.member "subquery"] else []) ++
          if j.has "partition_keys" then nestedInWindow nested j else [])) Showing := by
  unfold applicationOfDocument
  refine .check fun operands hoperands => .check fun ks hks => ?_
  rw [Json.elementsOf_of_field hoperands hks]
  refine .bind (.mapM fun k _ => hread k) ?_
  rintro es _ rfl
  refine .check fun type htype => .check fun type htype => ?_
  have hrest : ∀ operands : List Expr, Reads (fun b =>
      if j.has "partition_keys" then windowOfDocument (read b) name operands type j
      else return .app (headOf name type) operands)
      (if j.has "partition_keys" then nestedInWindow nested j else [])
      fun e shown => e.subqueries = operands.flatMap subqueries ++ shown := by
    intro operands
    refine .ite (fun hwindow => ?_) fun hwindow => ?_
    · rw [if_pos hwindow]
      exact windowOfDocument_reads hnull hread name operands type j
    · rw [if_neg (by simp [hwindow])]
      exact .pure (by simp)
  refine .ite (fun hin => ?_) fun hin => ?_
  · rw [if_pos hin]
    simp only [pure_bind]
    refine .bind (subqueryOfDocument_reads j) ?_
    rintro e _ rfl
    exact (hrest (es ++ [e])).mono fun c shown hc => by simpa using hc
  · rw [if_neg (by simp [hin]), nil_append]
    simp only [pure_bind]
    exact hrest es

end

/-- Reading an expression builds its subqueries in order, and the expression shows them. -/
theorem ofDocumentWithin_reads (fuel : Nat) (j : Json) :
    Reads (fun b => ofDocumentWithin b fuel j) (nestedWithin fuel j) Showing := by
  induction fuel generalizing j with
  | zero => exact .fail
  | succ fuel ih =>
      have hnull : nestedWithin fuel .null = [] := by cases fuel <;> rfl
      simp only [ofDocumentWithin, nestedWithin]
      refine .ite (fun _ => .fail) fun _ => .ite (fun hinput => ?_) fun hinput => ?_
      · rw [hinput, Bool.true_or, if_pos rfl]
        exact .check fun _ _ => .check fun _ _ => .pure rfl
      · refine .ite (fun hliteral => ?_) fun hliteral => ?_
        · rw [hliteral, Bool.or_true, if_pos rfl]
          exact .check fun _ _ => .pure rfl
        · rw [hinput, hliteral, Bool.or_self, if_neg Bool.false_ne_true]
          refine .ite (fun _ => .check fun op hop => .check fun name hname => ?_) fun _ => .fail
          rw [Json.member_of_field hop, Result.ofOption_eq_ok.mp hname]
          split
          · exact caseOfDocument_reads ih j
          · exact subqueryOfDocument_reads j
          · next hcase hquery =>
            split
            · next h => exact absurd (Option.some.inj h) hcase
            · next h => exact absurd (Option.some.inj h) hquery
            · next h =>
              cases h
              exact applicationOfDocument_reads hnull ih name j
            · next h => cases h

theorem ofDocument_reads (j : Json) :
    Reads (fun b => ofDocument b j) (nestedDocuments j) Showing :=
  ofDocumentWithin_reads _ j

end Expr

namespace Relation

open Build (Reads)
open QueryPlan.Expr (ofDocument_reads)

variable {env : Environment} {p : Plan}

/-- An operator shows what was built for it. -/
abbrev Showing (op : Operator) (shown : List Subquery) : Prop := op.subqueries = shown

theorem project_reads (j : Json) :
    Reads (fun b => project (Expr.ofDocument b) j) ((j.elementsOf "exprs").flatMap Expr.nestedDocuments)
      Showing := by
  unfold project
  refine .check fun exprs hexprs => .check fun ks hks => ?_
  rw [Json.elementsOf_of_field hexprs hks, ← append_nil (ks.flatMap _)]
  refine .bind (.mapM fun k _ => ofDocument_reads k) ?_
  rintro es _ rfl
  refine .check fun _ _ => .check fun _ _ => .check fun _ _ => .pure ?_
  exact (append_nil _).symm

theorem filter_reads (j : Json) :
    Reads (fun b => filter (Expr.ofDocument b) j) (Expr.nestedDocuments (j.member "condition"))
      Showing := by
  unfold filter
  refine .check fun condition hcondition => ?_
  rw [Json.member_of_field hcondition, ← append_nil (Expr.nestedDocuments condition)]
  refine .bind (ofDocument_reads condition) ?_
  rintro e _ rfl
  exact .pure (by simp [Showing, Operator.subqueries, Operator.exprs])

theorem join_reads (j : Json) :
    Reads (fun b => join (Expr.ofDocument b) j) (Expr.nestedDocuments (j.member "condition"))
      Showing := by
  unfold join
  refine .check fun _ _ => .check fun _ _ => .check fun _ _ => .check fun condition hcondition => ?_
  rw [Json.member_of_field hcondition, ← append_nil (Expr.nestedDocuments condition)]
  refine .bind (ofDocument_reads condition) ?_
  rintro e _ rfl
  exact .pure (by simp [Showing, Operator.subqueries, Operator.exprs])

theorem addOperand_reads (function : String) (invocation operand : Json)
    (state : List Nat × List Expr) :
    Reads (fun b => addOperand (Expr.ofDocument b) p function invocation state operand)
      (nestedInOperand operand) fun r shown =>
        r.2.flatMap Expr.subqueries = state.2.flatMap Expr.subqueries ++ shown := by
  unfold addOperand
  refine .check fun cursor hcursor => ?_
  rw [nestedInOperand, hcursor]
  cases cursor with
  | true =>
      refine .check fun _ _ => .check fun columns _ => .pure ?_
      -- The columns that a cursor forwards are references by position.
      have hcolumns : (columns.map Expr.positional).flatMap Expr.subqueries = [] := by
        rw [flatMap_map]
        exact flatMap_eq_nil_iff.mpr fun _ _ => rfl
      rw [flatMap_append, hcolumns]
  | false =>
      rw [show (if Result.valueOr false (.ok false) = true then [] else Expr.nestedDocuments operand) =
        Expr.nestedDocuments operand ++ [] by simp [Result.valueOr]]
      refine .bind (ofDocument_reads operand) ?_
      rintro e _ rfl
      exact .pure (by simp)

theorem tableFunction_reads (j : Json) :
    Reads (fun b => tableFunction (Expr.ofDocument b) p j)
      (((j.member "invocation").elementsOf "operands").flatMap nestedInOperand) Showing := by
  unfold tableFunction
  refine .check fun invocation hinvocation => .check fun _ _ => .check fun function _ =>
    .check fun operands hoperands => .check fun ks hks => ?_
  rw [Json.member_of_field hinvocation, Json.elementsOf_of_field hoperands hks,
    ← append_nil (ks.flatMap _)]
  refine .bind (.foldlM (g := fun b => addOperand (Expr.ofDocument b) p function invocation)
    (fun state k _ => addOperand_reads function invocation k state) ([], [])) ?_
  rintro ⟨cursor, args⟩ shown hshown
  refine .check fun rowType _ => .check fun fields _ => .pure ?_
  have hresults : ((range fields.length).map Expr.supplied).flatMap Expr.subqueries = [] := by
    rw [flatMap_map]
    exact flatMap_eq_nil_iff.mpr fun _ _ => rfl
  simpa [Showing, Operator.subqueries, Operator.exprs, hresults] using hshown

/-! ### Operators without expressions -/

section

variable {j : Json} {op : Operator}

theorem scan_exprs (h : scan env j = .ok op) : op.exprs = [] := by
  obtain ⟨s, rfl⟩ := scan_eq_ok h
  rfl

theorem materializedScan_exprs (h : materializedScan env j = .ok op) : op.exprs = [] := by
  obtain ⟨s, rfl⟩ := materializedScan_eq_ok h
  rfl

theorem aggregate_exprs (h : aggregate j = .ok op) : op.exprs = [] := by
  obtain ⟨a, rfl, -⟩ := aggregate_eq_ok h
  rfl

theorem sort_exprs (h : sort j = .ok op) : op.exprs = [] := by
  obtain ⟨s, rfl⟩ := sort_eq_ok h
  rfl

theorem values_exprs (h : values j = .ok op) : op.exprs = [] := by
  obtain ⟨v, rfl⟩ := values_eq_ok h
  rfl

theorem union_exprs (h : union env j = .ok op) : op.exprs = [] := by
  obtain ⟨u, rfl⟩ := union_eq_ok h
  rfl

end

theorem plain_reads {x : Result Operator} (h : ∀ op, x = .ok op → op.exprs = []) :
    Reads (fun _ => liftM x) [] Showing where
  congr _ _ _ := rfl
  run hrun := by
    obtain ⟨hx, rfl⟩ := Build.lift_eq_ok.mp hrun
    exact ⟨[], rfl, Operator.subqueries_of_exprs_nil (h _ hx)⟩

/-- What reading an entry gives: a plan that still has the nodes from before, and an operator that
shows what was built for it. -/
structure Entry (p : Plan) (r : Plan × List NodeId × Operator) (shown : List Subquery) : Prop where
  plan : ∀ n, p.Grows n r.1 n
  op : r.2.2.subqueries = shown

theorem markTarget_grows {operation : ModifyOperation} {target : ModifyTarget}
    {inputs : List NodeId} {q : Plan} (h : markTarget p operation target inputs = .ok q) (n : Nat) :
    p.Grows n q n := by
  obtain ⟨input, -, h⟩ := Result.bind_eq_ok.mp h
  split at h
  · next j hop =>
    obtain rfl := Result.pure_eq_ok.mp h
    refine (Plan.Grows.refl p n).setOp ?_
    have hsub := p.subqueries_op_subset input
    rwa [hop] at hsub
  · exact absurd h Result.fail_ne_ok

theorem modify_entry {inputs : List NodeId} {j : Json} {r : Plan × Operator}
    (h : modify env p inputs j = .ok r) : Entry p (r.1, inputs, r.2) [] := by
  obtain ⟨⟨m, hop⟩, hplan⟩ := modify_eq_ok h
  refine ⟨fun n => ?_, by rw [hop]; rfl⟩
  rcases hplan with hplan | ⟨operation, target, hmark⟩
  · rw [hplan]
    exact .refl p n
  · exact markTarget_grows hmark n

/-- Reading an entry builds the subqueries in its expressions in order, and the operator shows
them. -/
theorem nodeOf_reads (env : Environment) (p : Plan) (j : Json) :
    Reads (fun b => nodeOf env (Expr.ofDocument b) p j) (nestedDocuments j) (Entry p) := by
  unfold nodeOf
  have hreading : ∀ {m : Expr.PlanBuilder → Build Operator} {docs : List Json},
      Reads m docs Showing → Reads (fun b => do
        let inputs ← inputsOf p j
        return (p, inputs, ← m b)) docs (Entry p) := by
    intro m docs hm
    refine .check fun inputs _ => ?_
    rw [← append_nil docs]
    exact .bind hm fun op shown hop => .pure ⟨.refl p, hop.trans (append_nil shown).symm⟩
  have hplain : ∀ {x : Result Operator}, (∀ op, x = .ok op → op.exprs = []) →
      Reads (fun _ => do return (p, [], ← x)) [] (Entry p) := fun hx =>
    .check fun op hop => .pure ⟨.refl p, Operator.subqueries_of_exprs_nil (hx op hop)⟩
  refine .check fun relOp hrelOp => .check fun name hname => ?_
  rw [nestedDocuments, Json.member_of_field hrelOp, Result.ofOption_eq_ok.mp hname]
  dsimp only
  split
  · exact hplain fun _ => scan_exprs
  · exact hplain fun _ => materializedScan_exprs
  · exact hreading (project_reads j)
  · exact hreading (filter_reads j)
  · exact hreading (plain_reads fun _ => aggregate_exprs)
  · exact hreading (join_reads j)
  · exact hreading (plain_reads fun _ => sort_exprs)
  · exact hplain fun _ => values_exprs
  · exact .check fun inputs _ => .check fun r hr => .pure (modify_entry hr)
  · exact hreading (tableFunction_reads j)
  · exact hreading (plain_reads fun _ => union_exprs)
  · exact .fail

end Relation

end QueryPlan
