import QueryPlan.Proofs.Marks.Fusion
/-!
# QueryPlan.Proofs.Marks.Groupings

**A marked grouping reads a grouping by the same keys** (`Plan.NopsRegroup`). That is how it was
marked, and every pass leaves it so: none takes an aggregate out of a plan or changes its keys, and
if what a marked node reads goes into a compound, the targets of the compound are the keys.
-/

namespace QueryPlan

open List Plan

namespace Operator

/-- The operator groups by a number of keys and gives nothing but the keys. -/
def GroupsBy (keys : Nat) : Operator → Prop
  | aggregate a => a.calls = [] ∧ a.groupCount = keys
  | compound c => c.isAggregate = true ∧ c.calls = [] ∧ c.groupCount = keys ∧
    c.targets.length = keys ∧ ∀ k < keys, c.targetSource? k = some (.supplied (k + 1))
  | _ => False

/-- Whether the operator is marked as a grouping with nothing left to do. -/
def isNop : Operator → Bool
  | aggregate a => a.isNop
  | _ => false

/-- Whether the operator may group rows. -/
def mayGroup : Operator → Bool
  | aggregate _ | compound _ => true
  | _ => false

variable {op : Operator} {keys : Nat}

theorem GroupsBy.mayGroup (h : op.GroupsBy keys) : op.mayGroup = true := by
  cases op with
  | aggregate _ | compound _ => rfl
  | _ => cases h

theorem mayGroup_of_isNop (h : op.isNop = true) : op.mayGroup = true := by
  cases op with
  | aggregate _ => rfl
  | _ => cases h

theorem targetSource?_mapExprs (c : Compound) (f : Expr → Expr) (k : Nat) :
    ({ c with filter := c.filter.map f, sources := c.sources.map f } : Compound).targetSource? k =
      (c.targetSource? k).map f := by
  unfold Compound.targetSource?
  dsimp only
  split <;> simp

theorem mapColumns_eq_supplied {e : Expr} {f : ColumnRef → ColumnRef} {k : Nat} :
    e.mapColumns f = .supplied k ↔ e = .supplied k := by
  cases e with
  | leaf l => cases l <;> simp [Expr.supplied, Expr.column]
  | app head args => simp [Expr.supplied]

theorem groupsBy_mapColumns (op : Operator) (f : ColumnRef → ColumnRef) :
    (op.mapExprs (Expr.mapColumns f)).GroupsBy = op.GroupsBy := by
  funext keys
  cases op with
  | compound c =>
      simp only [mapExprs, GroupsBy, targetSource?_mapExprs, Option.map_eq_some_iff,
        mapColumns_eq_supplied, exists_eq_right]
  | _ => rfl

theorem groupsBy_mapPositions (op : Operator) (f : Nat → Nat) :
    (op.mapPositions f).GroupsBy = op.GroupsBy := by
  funext keys
  cases op with
  | aggregate a => simp only [mapPositions, GroupsBy, map_eq_nil_iff]
  | _ => rfl

theorem isNop_mapExprs (op : Operator) (f : Expr → Expr) : (op.mapExprs f).isNop = op.isNop := by
  cases op <;> rfl

theorem isNop_mapPositions (op : Operator) (f : Nat → Nat) :
    (op.mapPositions f).isNop = op.isNop := by
  cases op <;> rfl

theorem mayGroup_mapExprs (op : Operator) (f : Expr → Expr) :
    (op.mapExprs f).mayGroup = op.mayGroup := by
  cases op <;> rfl

theorem mayGroup_mapPositions (op : Operator) (f : Nat → Nat) :
    (op.mapPositions f).mayGroup = op.mayGroup := by
  cases op <;> rfl

end Operator

/-- The groupings of a plan, with the keys that they give and their marks. -/
def View.groupings : View ((Nat → Prop) × Bool) where
  see _ op := if op.mayGroup then some (fun keys => op.GroupsBy keys, op.isNop) else none
  isReader k := k.2
  see_mapColumns id op f := by
    rw [Operator.mayGroup_mapExprs, Operator.groupsBy_mapColumns, Operator.isNop_mapExprs]
  see_mapPositions id op f := by
    rw [Operator.mayGroup_mapPositions, Operator.groupsBy_mapPositions, Operator.isNop_mapPositions]
  see_plain id op h := by
    cases op with
    | aggregate _ | compound _ => cases h
    | _ => rfl
  see_default id := rfl
  isReader_project id j k h := by cases h

theorem View.see_groupings_eq_some {id : NodeId} {op : Operator} {k : (Nat → Prop) × Bool} :
    View.groupings.see id op = some k ↔
      op.mayGroup = true ∧ k = (fun keys => op.GroupsBy keys, op.isNop) := by
  change (if op.mayGroup then _ else none) = some k ↔ _
  split
  · next h => simp [h, eq_comm]
  · next h => simp [h]

namespace Plan

/-- Every live node that is marked groups by the keys by which its input is grouped. -/
def NopsRegroup (p : Plan) : Prop :=
  ∀ n ∈ p.order, (p.op n).isNop = true →
    ∃ keys i, (p.op n).GroupsBy keys ∧ p.inputs n = [i] ∧ (p.op i).GroupsBy keys

variable {p q r : Plan} {id n i : NodeId} {keys next next' : Nat}

/-- Two operators that look the same group by the same keys. -/
theorem groupsBy_of_see {op op' : Operator}
    (hsee : View.groupings.see id op' = View.groupings.see id op) (h : op.GroupsBy keys) :
    op'.GroupsBy keys := by
  have hsome := hsee.trans (View.see_groupings_eq_some.mpr ⟨h.mayGroup, rfl⟩)
  have heq := congrFun (Prod.mk.inj (View.see_groupings_eq_some.mp hsome).2).1 keys
  exact heq ▸ h

theorem isNop_of_see {op op' : Operator}
    (hsee : View.groupings.see id op' = View.groupings.see id op) (h : op'.isNop = true) :
    op.isNop = true := by
  have hsome := hsee.symm.trans
    (View.see_groupings_eq_some.mpr ⟨Operator.mayGroup_of_isNop h, rfl⟩)
  exact (Prod.mk.inj (View.see_groupings_eq_some.mp hsome).2).2 ▸ h

theorem NopsRegroup.of_keeps (h : p.NopsRegroup) (hkeeps : Keeps View.groupings p q) :
    q.NopsRegroup := by
  intro n hn hnop
  have hnop' := isNop_of_see (hkeeps.see_eq n) hnop
  have hin : n.index < p.arena.size := lt_size_of_op_ne fun hdefault => by
    rw [hdefault] at hnop'
    cases hnop'
  obtain ⟨keys, i, hgroups, hinputs, hi⟩ := h n (hkeeps.live n hn hin) hnop'
  refine ⟨keys, i, groupsBy_of_see (hkeeps.see_eq n) hgroups, ?_,
    groupsBy_of_see (hkeeps.see_eq i) hi⟩
  refine hkeeps.inputs_eq n _ i (View.see_groupings_eq_some.mpr
    ⟨Operator.mayGroup_of_isNop hnop', rfl⟩) hnop' hinputs fun hnone => ?_
  rw [View.see_groupings_eq_some.mpr ⟨hi.mayGroup, rfl⟩] at hnone
  cases hnone

/-! ### Passes -/

/-- A node is marked if it regroups a grouping. -/
theorem markNop_eq_ok (hq : p.markNop id = .ok q) : q = p ∨ ∃ a input, p.op id = .aggregate a ∧
    a.calls = [] ∧ p.inputs id = [input] ∧ (p.op input).GroupsBy a.groupCount ∧
      q = p.setOp id (.aggregate { a with isNop := true }) := by
  unfold markNop at hq
  split at hq
  · next a hop =>
    split at hq
    · next hcalls =>
      obtain ⟨input, hinput, hq⟩ := Result.bind_eq_ok.mp hq
      split at hq
      · next hgrouping =>
        refine .inr ⟨a, input, hop, isEmpty_iff.mp hcalls, Node.singleInput_eq_ok.mp hinput, ?_,
          (Result.pure_eq_ok.mp hq).symm⟩
        unfold isGrouping at hgrouping
        split at hgrouping
        · next b hb => simpa [hb, Operator.GroupsBy] using hgrouping
        · cases hgrouping
      · exact .inl (Result.pure_eq_ok.mp hq).symm
    · exact .inl (Except.ok.inj hq).symm
  · exact .inl (Except.ok.inj hq).symm

theorem NopsRegroup.markNop (h : p.NopsRegroup) (hq : p.markNop id = .ok q) : q.NopsRegroup := by
  rcases markNop_eq_ok hq with rfl | ⟨a, input, hop, hcalls, hinputs, hinput, rfl⟩
  · exact h
  by_cases hin : id.index < p.arena.size
  · have hgroups : ∀ x keys, (p.op x).GroupsBy keys →
        ((p.setOp id (.aggregate { a with isNop := true })).op x).GroupsBy keys := by
      intro x keys hx
      by_cases hxid : x = id
      · rw [hxid, op_setOp_self _ hin]
        rwa [hxid, hop] at hx
      · rwa [op_congr (node_setOp_of_ne _ hxid)]
    intro n hn hnop
    by_cases hnid : n = id
    · refine ⟨a.groupCount, input, hgroups n _ ?_, ?_, hgroups input _ hinput⟩
      · rw [hnid, hop]
        exact ⟨hcalls, rfl⟩
      · rw [inputs_setOp, hnid, hinputs]
    · rw [op_congr (node_setOp_of_ne _ hnid)] at hnop
      obtain ⟨keys, i, hn', hread, hi⟩ := h n hn hnop
      exact ⟨keys, i, hgroups n _ hn', by rwa [inputs_setOp], hgroups i _ hi⟩
  · rw [setOp, modify_of_size_le _ (Nat.le_of_not_lt hin)]
    exact h

/-- If a chain ends with a grouping, its compound groups by the same keys. -/
theorem fuseNode_groupsBy {f g : Fusion} (hf : p.fuseNode g id = .ok f)
    (h : (p.op id).GroupsBy keys) : (Operator.compound f.compound).GroupsBy keys := by
  obtain ⟨k, hk, rfl⟩ := fuseNode_eq_ok.mp hf
  cases hop : p.op id with
  | aggregate a =>
      rw [hop] at h hk
      obtain ⟨hcalls, rfl⟩ := h
      obtain ⟨-, -, hk⟩ := Result.bind_eq_ok.mp hk
      obtain rfl := Result.pure_eq_ok.mp hk
      refine ⟨rfl, hcalls, rfl, by simp [hcalls], fun key hkey => ?_⟩
      simp [Compound.targetSource?, hcalls, hkey]
  | compound c =>
      rw [hop] at hk
      cases hk
  | _ =>
      rw [hop] at h
      cases h

theorem Ordered.replaceChain_nopsRegroup {joinRoots ids : List NodeId} {stage : ChainStage}
    {first last : NodeId} (hp : p.Ordered p.order) (h : p.NopsRegroup)
    (hchain : p.Chained joinRoots ids stage) (hlast : ids.getLast? = some last)
    (hq : p.replaceChain ids first last next = .ok (q, next')) : q.NopsRegroup := by
  obtain ⟨f, -, hf, -, hfused⟩ := hp.fused hchain hlast hq
  obtain ⟨g, hlastNode⟩ := exists_fuseNode_last hf hlast
  intro n hn hnop
  have hne : n ≠ p.nextId := by
    rintro rfl
    rw [hfused.op_new] at hnop
    cases hnop
  obtain ⟨hlive, hnids⟩ := hfused.live n hn hne
  have hsee := hfused.see_eq (v := View.groupings) hlive hnids
  obtain ⟨keys, i, hgroups, hinputs, hi⟩ := h n hlive (isNop_of_see hsee hnop)
  -- The marked node is left, so it is not in the chain. What it reads may be the last node of it.
  rcases hfused.reads hn hne hinputs with ⟨hiids, hread⟩ | ⟨rfl, hread⟩
  · have hilive := hp.mem_of_input hlive (hinputs ▸ mem_singleton_self i)
    exact ⟨keys, i, groupsBy_of_see hsee hgroups, hread,
      groupsBy_of_see (hfused.see_eq hilive hiids) hi⟩
  · refine ⟨keys, p.nextId, groupsBy_of_see hsee hgroups, hread, ?_⟩
    rw [hfused.op_new]
    exact fuseNode_groupsBy hlastNode hi

/-- Every pass leaves marks true. -/
theorem NopsRegroup.apply {pass : Pass} (hp : p.Ordered p.order) (h : p.NopsRegroup)
    (hq : pass.apply p next = .ok (q, next')) : q.NopsRegroup := by
  cases pass with
  | markNops =>
      exact Result.foldlM_keeps (motive := NopsRegroup) (Fresh.lift_eq_ok.mp hq).1 h
        fun _ _ _ _ hr hstep => hr.markNop hstep
  | separateWindows =>
      refine h.of_keeps (.separateWindows hq fun id j _ _ _ => rfl)
  | fuseChains joinRoots =>
      exact hp.fuseChains_keeps h (fun _ _ _ _ _ _ _ _ hr hnops hchain _ hlast hs =>
        hr.replaceChain_nopsRegroup hnops hchain hlast hs) hq
  | _ => exact h.of_keeps (Pass.keeps rfl hp hq)

end Plan

end QueryPlan
