import QueryPlan.Proofs.Marks.Fusion
import QueryPlan.Proofs.Success.Fusion
/-!
# QueryPlan.Proofs.Marks.Operands

**The calls of a compound have their operands.** An aggregate in a chain stands right behind the first
projection, which left a source for each of its columns. So operands that are positions of this
projection are positions of sources. Sources are only added later, and the other passes see neither
calls nor the number of sources.
-/

namespace QueryPlan

open List Plan

/-- There is a source for every operand of a call. -/
def Compound.Supplied (c : Compound) : Prop :=
  ∀ call ∈ c.calls, ∀ k ∈ call.operands, k < c.sources.length

instance : DecidablePred Compound.Supplied := fun c =>
  inferInstanceAs (Decidable (∀ call ∈ c.calls, _))

/-- The calls of compounds and the numbers of their sources. -/
def View.supplies : View (List AggregateCall × Nat) where
  see _
    | .compound c => some (c.calls, c.sources.length)
    | _ => none
  isReader _ := false
  see_mapColumns id op f := by
    cases op with
    | compound c => simp [Operator.mapExprs]
    | _ => rfl
  see_mapPositions id op f := by cases op <;> rfl
  see_plain id op h := by
    cases op with
    | compound c => cases h
    | _ => rfl
  see_default _ := rfl
  isReader_project _ _ _ _ := rfl

theorem View.see_supplies_compound {id : NodeId} {op : Operator} {c : Compound}
    (h : View.supplies.see id (.compound c) = View.supplies.see id op) :
    ∃ c', op = .compound c' ∧ c'.calls = c.calls ∧ c'.sources.length = c.sources.length := by
  cases op with
  | compound c' =>
      obtain ⟨hcalls, hlength⟩ := Prod.mk.inj (Option.some.inj h)
      exact ⟨c', rfl, hcalls.symm, hlength.symm⟩
  | _ => cases h

variable {p q : Plan} {id input last : NodeId} {ids joinRoots : List NodeId} {stage : ChainStage}
  {next next' : Nat}

/-! ### A chain -/

namespace Fusion

variable {f g : Fusion}

/-- There are sources for operands, and no calls before the first projection. -/
structure Feeds (f : Fusion) : Prop where
  supplied : f.compound.Supplied
  unprojected : f.projected = false → f.compound.calls = []

theorem Feeds.fuseProject {j : Project} (hg : g.Feeds) (h : p.fuseProject g id j = .ok f) :
    f.Feeds := by
  rcases Plan.fuseProject_cases h with
    ⟨hprojected, targets, sources, hsources, rfl⟩ | ⟨hprojected, exprs, -, rfl⟩
  · have hle : g.compound.sources.length ≤ sources.length := by
      rcases hsources with ⟨rfl, -⟩ | ⟨last, -, hrun⟩
      · exact Nat.le_refl _
      · refine (addTarget_mapM_induct (motive := fun s => g.compound.sources.length ≤ s.length)
          (Nat.le_refl _) (fun _ _ old source hold _ => ?_) hrun).2
        rw [length_append]
        exact Nat.le_add_right_of_le hold
    exact ⟨fun call hcall k hk => Nat.lt_of_lt_of_le (hg.supplied call hcall k hk) hle,
      fun hnot => absurd (hprojected.symm.trans hnot) (by decide)⟩
  · have hcalls : g.compound.calls = [] := hg.unprojected hprojected
    refine ⟨fun call hcall => ?_, nofun⟩
    exact absurd (hcalls ▸ hcall : call ∈ []) not_mem_nil

/-- A node of a chain feeds calls, if an aggregate stands behind a projection and has its operands
among the sources. -/
theorem Feeds.fuseNode (hg : g.Feeds) (h : p.fuseNode g id = .ok f)
    (haggregate : ∀ a, p.op id = .aggregate a → g.projected = true ∧
      ∀ call ∈ a.calls, ∀ k ∈ call.operands, k < g.compound.sources.length) : f.Feeds := by
  obtain ⟨k, hk, rfl⟩ := Plan.fuseNode_eq_ok.mp h
  suffices hfeeds : k.Feeds from ⟨hfeeds.supplied, hfeeds.unprojected⟩
  split at hk
  · obtain ⟨-, -, hk⟩ := Result.bind_eq_ok.mp hk
    obtain rfl := Result.pure_eq_ok.mp hk
    exact ⟨hg.supplied, hg.unprojected⟩
  · exact hg.fuseProject hk
  · next a hop =>
    obtain ⟨hprojected, hoperands⟩ := haggregate a hop
    obtain ⟨-, -, hk⟩ := Result.bind_eq_ok.mp hk
    obtain rfl := Result.pure_eq_ok.mp hk
    refine ⟨fun call hcall k hk => ?_, fun hnot => absurd (hprojected.symm.trans hnot) (by decide)⟩
    change k < (_ ++ _ : List Expr).length
    rw [length_append]
    exact Nat.lt_add_right _ (hoperands call hcall k hk)
  · cases hk

end Fusion

namespace Plan

/-- The compound of a chain of a readable plan feeds its calls. -/
theorem Chained.feeds {f : Fusion} (h : p.Chained joinRoots ids stage) (hp : p.Readable)
    (hinput : ∀ first ∈ ids.head?, p.inputs first = [input])
    (hf : ids.foldlM p.fuseNode .start = .ok f) : f.Feeds := by
  induction h generalizing f with
  | nil =>
      obtain rfl := Except.ok.inj hf
      exact ⟨fun _ hcall => absurd hcall not_mem_nil, fun _ => rfl⟩
  | @next ids id stage next hchain hid hlink hnext ih =>
      obtain ⟨g, hg, hstep⟩ := Result.foldlM_concat_eq_ok.mp hf
      have hfront : ∀ first ∈ ids.head?, p.inputs first = [input] := fun first hfirst =>
        hinput first (mem_head?_append_of_mem_head? hfirst)
      refine (ih hfront hg).fuseNode hstep fun a hop => ?_
      rcases nextStage?_eq_some hnext with ⟨-, -, _, hop'⟩ | ⟨-, -, _, hop'⟩ | ⟨-, -, _, hop'⟩ |
        ⟨rfl, -, -⟩
      · cases hop.symm.trans hop'
      · cases hop.symm.trans hop'
      · cases hop.symm.trans hop'
      · obtain ⟨last, hlast, hcomputes⟩ := hchain.taken hp.toWellFormed hfront hg
        obtain ⟨g', hg', hstocked⟩ := hchain.fuse_ok hp hfront
        obtain rfl := Except.ok.inj (hg.symm.trans hg')
        -- The projection before left a source for each of its columns.
        have hsources : g.compound.sources.length = p.columnCount last := hstocked last hlast
        refine ⟨hcomputes.projected, fun call hcall k hk => ?_⟩
        have hwithin := (Operator.lookups_lt_iff.mp
          (hp.lookups id hid last (hlink last hlast).1)).1
        rw [hop] at hwithin
        exact hsources ▸ hwithin.2 call hcall k hk
  | @close ids id hchain hid hlink hend _ ih =>
      obtain ⟨g, hg, hstep⟩ := Result.foldlM_concat_eq_ok.mp hf
      obtain ⟨j, hop⟩ := endsChain_eq_true hend
      refine (ih (fun first hfirst => hinput first (mem_head?_append_of_mem_head? hfirst))
        hg).fuseNode hstep fun a hop' => ?_
      cases hop.symm.trans hop'

/-! ### Passes -/

/-- There is a source for every operand of a live compound. -/
def CompoundsSupplied (p : Plan) : Prop := ∀ n ∈ p.order, ∀ c, p.op n = .compound c → c.Supplied

theorem CompoundsSupplied.of_see {n : NodeId} {c : Compound} (h : p.CompoundsSupplied)
    (hn : n ∈ p.order) (hsee : View.supplies.see n (.compound c) = View.supplies.see n (p.op n)) :
    c.Supplied := by
  obtain ⟨c', hop, hcalls, hlength⟩ := View.see_supplies_compound hsee
  have hsupplied := h n hn c' hop
  rwa [Compound.Supplied, hcalls, hlength] at hsupplied

theorem CompoundsSupplied.of_keeps (h : p.CompoundsSupplied) (hkeeps : Keeps View.supplies p q) :
    q.CompoundsSupplied := by
  intro n hn c hop
  have hsee : View.supplies.see n (.compound c) = View.supplies.see n (p.op n) := by
    rw [← hop, hkeeps.see_eq]
  obtain ⟨c', hop', -, -⟩ := View.see_supplies_compound hsee
  exact h.of_see (hkeeps.live n hn (lt_size_of_op_ne (by rw [hop']; nofun))) hsee

theorem Readable.replaceChain_supplied {first : NodeId} (hp : p.Readable)
    (h : p.CompoundsSupplied) (hchain : p.Chained joinRoots ids stage)
    (hfirst : ids.head? = some first) (hlast : ids.getLast? = some last)
    (hq : p.replaceChain ids first last next = .ok (q, next')) : q.CompoundsSupplied := by
  obtain ⟨f, input, hf, hinput, hfused⟩ := hp.arranged.toOrdered.fused hchain hlast hq
  have hfeeds : f.Feeds := hchain.feeds hp (fun x hx => by
    cases hfirst.symm.trans hx
    exact hinput) hf
  intro n hn c hop
  by_cases hne : n = p.nextId
  · rw [hne, hfused.op_new] at hop
    cases hop
    exact hfeeds.supplied
  · obtain ⟨hlive, hnids⟩ := hfused.live n hn hne
    exact h.of_see hlive (by rw [← hop, hfused.see_eq hlive hnids])

/-- On readable plans, every pass leaves compounds their sources. -/
theorem CompoundsSupplied.apply {pass : Pass} (hp : p.Readable) (h : p.CompoundsSupplied)
    (hq : pass.apply p next = .ok (q, next')) : q.CompoundsSupplied := by
  cases pass with
  | markNops => exact h.of_keeps (.markNops (Fresh.lift_eq_ok.mp hq).1 fun _ _ => rfl)
  | separateWindows => exact h.of_keeps (.separateWindows hq fun _ _ _ _ _ => rfl)
  | fuseChains joinRoots =>
      refine (fuseChains_induct (I := fun r => r.Readable ∧ r.CompoundsSupplied) ?_
        hp.arranged.toOrdered ⟨hp, h⟩ hq).2.2
      intro r s ids stage first last n n' hchain hlength hfirst hlast hstep ⟨hr, hsupplied⟩
      exact ⟨hr.replaceChain hchain hlength hfirst hlast hstep,
        hr.replaceChain_supplied hsupplied hchain hfirst hlast hstep⟩
  | _ => exact h.of_keeps (Pass.keeps rfl hp.arranged.toOrdered hq)

/-- There are no compounds in a bound plan. -/
theorem Unbound.compoundsSupplied (h : p.Unbound) (hq : p.bind = .ok q) :
    q.CompoundsSupplied := by
  intro n hn c hop
  obtain ⟨-, rfl⟩ := h.bind_eq_ok.mp hq
  have hlive : n ∈ p.order := hn
  rw [Plan.op, node_resolved h.arranged.inArena, if_pos hlive] at hop
  change (p.op n).resolve _ = _ at hop
  cases hread : p.op n with
  | compound c' => exact absurd hread ((h.unbound n hlive).unfused c' default).1
  | _ =>
      rw [hread] at hop
      cases hop

end Plan

end QueryPlan
