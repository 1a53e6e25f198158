import QueryPlan.Pass.FusedNode
import QueryPlan.Proofs.Expr.Columns
import QueryPlan.Proofs.Plan.Cycles
import Mathlib.Data.Fintype.Card
/-!
# QueryPlan.Proofs.ChainFusion.Inlining

**Sources inside of sources.** The replacement of the columns of a node by sources goes on in the
sources, down to a depth at which it gives up. With more depth it only goes on where it gave up
(`inlineSources_goesOn`), so every expression has one outcome for all depths at which it does not
give up.

What lacks one level has a source that lacks one level, with one level less. So there is a source for
each number of levels below that, and as none of them lacks two, no expression lacks more levels than
there are sources (`Lacks.le`). A depth above the number of sources is therefore no bound
(`inlineSources_exact`): where the replacement gives up there it has no end, for the sources lead
back to themselves (`GivesUp.reachesCycle`).
-/

namespace QueryPlan

open List

namespace Result

variable {α β : Type} {cause : Cause} {x y : Result α}

/-- The second computation does what the first one does, but may go on where that one gives up. -/
def GoesOn (cause : Cause) (x y : Result α) : Prop := x = fail cause ∨ x = y

theorem GoesOn.bind {f g : α → Result β} (h : GoesOn cause x y)
    (hfg : ∀ a, GoesOn cause (f a) (g a)) : GoesOn cause (x >>= f) (y >>= g) := by
  rcases h with rfl | rfl
  · exact .inl rfl
  · cases x with
    | ok a => exact hfg a
    | error e => exact .inr rfl

theorem GoesOn.mapM {f g : α → Result β} {as : List α} (h : ∀ a ∈ as, GoesOn cause (f a) (g a)) :
    GoesOn cause (as.mapM f) (as.mapM g) := by
  induction as with
  | nil => exact .inr rfl
  | cons a as ih =>
      obtain ⟨ha, has⟩ := forall_mem_cons.mp h
      rw [mapM_cons, mapM_cons]
      exact ha.bind fun _ => (ih has).bind fun _ => .inr rfl

end Result

namespace Expr

variable {f g : Leaf → Result Expr} {e : Expr}

theorem mapLeavesM_goesOn {cause : Cause} (h : ∀ l ∈ e.leaves, Result.GoesOn cause (f l) (g l)) :
    Result.GoesOn cause (e.mapLeavesM f) (e.mapLeavesM g) := by
  induction e using ind with
  | leaf l => exact h l (mem_singleton_self l)
  | app head args ih =>
      rw [mapLeavesM_app, mapLeavesM_app]
      refine .bind (.mapM fun e he => ih e he fun l hl => h l ?_) fun _ => .inr rfl
      rw [leaves_app]
      exact mem_flatMap.mpr ⟨e, he, hl⟩

/-- A change of leaves fails because it refuses one of them. -/
theorem mapLeavesM_eq_error {err : Error} (h : e.mapLeavesM f = .error err) :
    ∃ l ∈ e.leaves, f l = .error err := by
  induction e using ind with
  | leaf l => exact ⟨l, mem_singleton_self l, h⟩
  | app head args ih =>
      rw [mapLeavesM_app] at h
      rcases Result.bind_eq_error.mp h with h | ⟨_, -, h⟩
      · obtain ⟨e, he, h⟩ := Result.mapM_eq_error h
        obtain ⟨l, hl, h⟩ := ih e he h
        exact ⟨l, by rw [leaves_app]; exact mem_flatMap.mpr ⟨e, he, hl⟩, h⟩
      · cases h

end Expr

namespace Fusion

variable {id : NodeId} {sources : List Expr} {e s : Expr} {depth depth' levels : Nat}

/-- The replacement gives up at a depth. -/
def GivesUp (id : NodeId) (sources : List Expr) (depth : Nat) (e : Expr) : Prop :=
  inlineSources id sources depth e = .fail .endlessSources

/-- With one more level the replacement goes on where it gave up, and does nothing else. -/
theorem inlineSources_goesOn (depth : Nat) (e : Expr) :
    Result.GoesOn .endlessSources (inlineSources id sources depth e)
      (inlineSources id sources (depth + 1) e) := by
  induction depth generalizing e with
  | zero => exact .inl rfl
  | succ depth ih =>
      rw [inlineSources, inlineSources]
      refine Expr.mapLeavesM_goesOn fun l _ => ?_
      cases l with
      | column c =>
          dsimp only
          split
          · refine .bind (.inr rfl) fun s => ?_
            split
            · exact .inr rfl
            · exact ih s
          · exact .inr rfl
      | _ => exact .inr rfl

/-- The outcome at a depth at which the replacement does not give up is that at all greater ones. -/
theorem inlineSources_of_not_givesUp (h : ¬GivesUp id sources depth e) (hle : depth ≤ depth') :
    inlineSources id sources depth' e = inlineSources id sources depth e := by
  induction depth', hle using Nat.le_induction with
  | base => rfl
  | succ depth' _ ih =>
      rw [← ih]
      refine ((inlineSources_goesOn depth' e).resolve_left fun hgives => h ?_).symm
      exact ih.symm.trans hgives

theorem GivesUp.mono (h : GivesUp id sources depth' e) (hle : depth ≤ depth') :
    GivesUp id sources depth e := by
  by_contra hno
  exact hno ((inlineSources_of_not_givesUp hno hle).symm.trans h)

/-! ### Levels -/

/-- The replacement gives up at a depth and would not give up with one more level. -/
def Lacks (id : NodeId) (sources : List Expr) (depth : Nat) (e : Expr) : Prop :=
  GivesUp id sources depth e ∧ ¬GivesUp id sources (depth + 1) e

theorem Lacks.unique (h : Lacks id sources depth e) (h' : Lacks id sources depth' e) :
    depth = depth' := by
  rcases Nat.lt_trichotomy depth depth' with hlt | heq | hlt
  · exact absurd (h'.1.mono hlt) h.2
  · exact heq
  · exact absurd (h.1.mono hlt) h'.2

/-- An expression that lacks a level has a source that does, with one level less. -/
theorem Lacks.exists_source (h : Lacks id sources (depth + 1) e) :
    ∃ (i : Nat) (s : Expr), sources[i]? = some s ∧ Lacks id sources depth s := by
  by_contra hnone
  have hsame : ∀ (i : Nat) (s : Expr), sources[i]? = some s →
      inlineSources id sources depth s = inlineSources id sources (depth + 1) s := by
    intro i s hs
    rcases inlineSources_goesOn depth s with hgives | heq
    · have hmore : GivesUp id sources (depth + 1) s := by
        by_contra hno
        exact hnone ⟨i, s, hs, hgives, hno⟩
      exact hgives.trans hmore.symm
    · exact heq
  have heq : inlineSources id sources (depth + 1) e = inlineSources id sources (depth + 2) e := by
    rw [inlineSources, inlineSources]
    refine Expr.mapLeavesM_congr fun l _ => ?_
    cases l with
    | column c =>
        dsimp only
        split
        · refine Result.bind_congr fun s hs => ?_
          rw [hsame c.index s (Result.ofOption_eq_ok.mp hs)]
        · rfl
    | _ => rfl
  exact h.2 (heq.symm.trans h.1)

/-- Below the level that an expression lacks every level is lacked by a source. -/
theorem Lacks.exists_source_of_lt (h : Lacks id sources depth e) (hlt : levels < depth) :
    ∃ (i : Nat) (s : Expr), sources[i]? = some s ∧ Lacks id sources levels s := by
  induction depth generalizing e with
  | zero => exact absurd hlt (Nat.not_lt_zero _)
  | succ depth ih =>
      obtain ⟨i, s, hs, hlacks⟩ := h.exists_source
      rcases Nat.lt_succ_iff_lt_or_eq.mp hlt with hlt | rfl
      · exact ih hlacks hlt
      · exact ⟨i, s, hs, hlacks⟩

/-- No expression lacks a level below as many as there are sources, since no source lacks two. -/
theorem Lacks.le (h : Lacks id sources depth e) : depth ≤ sources.length := by
  have hlevel : ∀ k : Fin depth, ∃ i : Fin sources.length, Lacks id sources k sources[i] := by
    intro k
    obtain ⟨i, s, hs, hlacks⟩ := h.exists_source_of_lt k.isLt
    obtain ⟨hi, rfl⟩ := List.getElem?_eq_some_iff.mp hs
    exact ⟨⟨i, hi⟩, hlacks⟩
  choose source hsource using hlevel
  have hinjective : Function.Injective source := fun a b hab =>
    Fin.ext ((hsource a).unique (hab ▸ hsource b))
  simpa using Fintype.card_le_of_injective source hinjective

/-- A depth above the number of sources is no bound: what gives up there gives up at every depth, and
everything else comes out as at every greater depth. -/
theorem inlineSources_exact (hdepth : sources.length + 1 ≤ depth) :
    inlineSources id sources depth e = inlineSources id sources (sources.length + 1) e := by
  by_cases hgives : GivesUp id sources (sources.length + 1) e
  · suffices GivesUp id sources depth e from this.trans hgives.symm
    induction depth, hdepth using Nat.le_induction with
    | base => exact hgives
    | succ depth hdepth ih =>
        by_contra hno
        exact absurd (Lacks.le ⟨ih, hno⟩) (Nat.not_le.mpr hdepth)
  · exact inlineSources_of_not_givesUp hgives hdepth

/-! ### Circles -/

/-- A source that is no leaf has the column of another one at its leaves. -/
def Refers (id : NodeId) (sources : List Expr) (i k : Nat) : Prop :=
  ∃ s, sources[i]? = some s ∧ s.isLeaf = false ∧ ⟨id, k⟩ ∈ s.columns

/-- Where the replacement gives up it does so in a source. -/
theorem GivesUp.exists_source (h : GivesUp id sources (depth + 1) e) :
    ∃ (i : Nat) (s : Expr), ⟨id, i⟩ ∈ e.columns ∧ sources[i]? = some s ∧ s.isLeaf = false ∧
      GivesUp id sources depth s := by
  obtain ⟨l, hl, hgives⟩ := Expr.mapLeavesM_eq_error h
  split at hgives
  · next c =>
    split at hgives
    · next hid =>
      have hc : ⟨id, c.index⟩ ∈ e.columns := hid ▸ Expr.mem_columns_iff.mpr hl
      rcases Result.bind_eq_error.mp hgives with hnone | ⟨s, hs, hgives⟩
      · cases hsource : sources[c.index]? with
        | none => rw [hsource] at hnone; cases hnone
        | some s => rw [hsource] at hnone; cases hnone
      · split at hgives
        · cases hgives
        · next hleaf =>
          exact ⟨_, s, hc, Result.ofOption_eq_ok.mp hs, Bool.eq_false_iff.mpr hleaf, hgives⟩
    · cases hgives
  · cases hgives

/-- A replacement that gives up has come over as many sources as it had levels. -/
theorem GivesUp.exists_walk (h : GivesUp id sources (depth + 1) e) :
    ∃ i l, ⟨id, i⟩ ∈ e.columns ∧ l.length = depth ∧ IsChain (Refers id sources) (i :: l) := by
  induction depth generalizing e with
  | zero =>
      obtain ⟨i, -, hi, -⟩ := h.exists_source
      exact ⟨i, [], hi, rfl, .singleton i⟩
  | succ depth ih =>
      obtain ⟨i, s, hi, hs, hleaf, hgives⟩ := h.exists_source
      obtain ⟨k, l, hk, hlength, hwalk⟩ := ih hgives
      exact ⟨i, k :: l, hi, congrArg (· + 1) hlength, .cons_cons ⟨s, hs, hleaf, hk⟩ hwalk⟩

/-- Where the replacement has no end, the sources of the expression lead back to themselves. -/
theorem GivesUp.reachesCycle (h : GivesUp id sources (sources.length + 1) e) :
    ∃ i, ⟨id, i⟩ ∈ e.columns ∧ ReachesCycle (Refers id sources) i := by
  have hdeeper : GivesUp id sources (sources.length + 2) e :=
    (inlineSources_exact (Nat.le_succ _)).trans h
  obtain ⟨i, l, hi, hlength, hwalk⟩ := hdeeper.exists_walk
  obtain ⟨k, l, rfl⟩ := exists_cons_of_length_eq_add_one hlength
  -- A way over more sources than there are comes to one of them twice.
  have hcycle : ReachesCycle (Refers id sources) k := by
    refine reachesCycle_of_long_walk (fun x y hxy => ?_) hwalk
      (Nat.le_of_eq (length_range.trans (Nat.succ.inj hlength).symm))
    obtain ⟨s, hs, -⟩ := hxy
    exact mem_range.mpr (List.getElem?_eq_some_iff.mp hs).1
  exact ⟨i, hi, hcycle.head (rel_of_isChain_cons_cons hwalk)⟩

end Fusion

end QueryPlan
