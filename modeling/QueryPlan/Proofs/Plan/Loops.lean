import QueryPlan.Proofs.Plan.Edits
/-!
# QueryPlan.Proofs.Plan.Loops

**Loops over the live nodes.** A pass lists the live nodes first and changes the plan on its way
along that list. If no step takes out a node further back than the one that it looks at
(`removals_induct`), or none takes out any (`insertions_induct`), every node is live when its turn
comes, and what each step keeps the loop keeps.
-/

namespace QueryPlan

open List

namespace Plan

variable {p q : Plan} {id : NodeId} {next next' : Nat}

/-- A plan on the way of a loop over the live nodes, which has taken out only nodes that it has
looked at. -/
structure Pending (p r : Plan) (done : List NodeId) : Prop where
  sublist : r.order <+ p.order
  live : ∀ x ∈ p.order, x ∉ done → x ∈ r.order

namespace Pending

variable {r r' : Plan} {done rest : List NodeId}

theorem refl (p : Plan) : p.Pending p [] := ⟨Sublist.refl _, fun _ hx _ => hx⟩

variable (h : p.Pending r done) (hnodup : p.order.Nodup) (hsplit : p.order = done ++ id :: rest)
include h hnodup hsplit

/-- The next node is live. -/
theorem mem : id ∈ r.order := by
  refine h.live id (by simp [hsplit]) fun hdone => ?_
  exact (nodup_append.mp (hsplit ▸ hnodup)).2.2 id hdone id mem_cons_self rfl

/-- A step takes out nothing further back than the node that it looks at. -/
theorem concat (hsub : r'.order <+ r.order)
    (hgone : ∀ x ∈ r.order, x ∉ r'.order → x = id ∨ [x, id] <+ r.order) :
    p.Pending r' (done ++ [id]) := by
  refine ⟨hsub.trans h.sublist, fun x hx hxdone => ?_⟩
  rw [mem_append, mem_singleton, not_or] at hxdone
  by_contra hx'
  rcases hgone x (h.live x hx hxdone.1) hx' with rfl | hpair
  · exact hxdone.2 rfl
  · exact hxdone.1 (mem_left_of_pair (hsplit ▸ hpair.trans h.sublist) (hsplit ▸ hnodup))

end Pending

/-- A loop in which a step takes out nothing further back than the node that it looks at. -/
theorem removals_induct {f : Plan → NodeId → Result Plan} {motive : List NodeId → Plan → Prop}
    (hnodup : p.order.Nodup) (hq : p.order.foldlM f p = .ok q) (start : motive [] p)
    (step : ∀ done id rest r r', p.order = done ++ id :: rest → id ∈ r.order → motive done r →
      f r id = .ok r' → motive (done ++ [id]) r' ∧ r'.order <+ r.order ∧
        ∀ x ∈ r.order, x ∉ r'.order → x = id ∨ [x, id] <+ r.order) : motive p.order q := by
  refine (Result.foldlM_induct (motive := fun done r => motive done r ∧ p.Pending r done) hq
    ⟨start, .refl p⟩ ?_).1
  rintro done a rest r r' hsplit ⟨hmotive, hpending⟩ hstep
  have ha := hpending.mem hnodup hsplit
  obtain ⟨hmotive', hsub, hgone⟩ := step done a rest r r' hsplit ha hmotive hstep
  exact ⟨hmotive', hpending.concat hnodup hsplit hsub hgone⟩

/-- Such a loop succeeds if each step does, from a plan with what is known of the nodes that the
loop has looked at. -/
theorem removals_run {f : Plan → NodeId → Result Plan} {motive : List NodeId → Plan → Prop}
    (hnodup : p.order.Nodup) (start : motive [] p)
    (step : ∀ done id rest r, p.order = done ++ id :: rest → r.order <+ p.order → id ∈ r.order →
      motive done r → ∃ r', f r id = .ok r' ∧ motive (done ++ [id]) r' ∧ r'.order <+ r.order ∧
        ∀ x ∈ r.order, x ∉ r'.order → x = id ∨ [x, id] <+ r.order) :
    ∃ q, p.order.foldlM f p = .ok q ∧ motive p.order q := by
  have hrun : ∃ q, p.order.foldlM f p = .ok q ∧ motive p.order q ∧ p.Pending q p.order := by
    refine Result.foldlM_ok (motive := fun done r => motive done r ∧ p.Pending r done)
      ⟨start, .refl p⟩ fun done a rest r hsplit ⟨hmotive, hpending⟩ => ?_
    have ha := hpending.mem hnodup hsplit
    obtain ⟨r', hstep, hmotive', hsub, hgone⟩ :=
      step done a rest r hsplit hpending.sublist ha hmotive
    exact ⟨r', hstep, hmotive', hpending.concat hnodup hsplit hsub hgone⟩
  exact hrun.imp fun q h => ⟨h.1, h.2.1⟩

/-- Such a loop succeeds if each step does, from a plan with what the steps keep. -/
theorem removals_ok {f : Plan → NodeId → Result Plan} {motive : Plan → Prop}
    (hnodup : p.order.Nodup) (start : motive p)
    (step : ∀ r id, id ∈ r.order → motive r → ∃ r', f r id = .ok r' ∧ motive r' ∧
      r'.order <+ r.order ∧ ∀ x ∈ r.order, x ∉ r'.order → x = id ∨ [x, id] <+ r.order) :
    ∃ q, p.order.foldlM f p = .ok q ∧ motive q :=
  removals_run (motive := fun _ => motive) hnodup start
    fun _ id _ r _ _ hid hmotive => step r id hid hmotive

/-- A step that leaves the order alone takes nothing out. -/
theorem nothing_removed {l : List NodeId} (h : q.order = l) :
    q.order <+ l ∧ ∀ x ∈ l, x ∉ q.order → x = id ∨ [x, id] <+ l :=
  ⟨h ▸ Sublist.refl _, fun _ hx hx' => absurd (h ▸ hx) hx'⟩

/-- Taking out the node itself takes out nothing further back. -/
theorem only_self_removed {l : List NodeId}
    (h : q.order = l ∨ q.order = l.filter fun n => n != id) :
    q.order <+ l ∧ ∀ x ∈ l, x ∉ q.order → x = id ∨ [x, id] <+ l := by
  rcases h with h | h
  · exact nothing_removed h
  · refine ⟨h ▸ filter_sublist, fun x hx hx' => .inl ?_⟩
    rw [h, mem_filter, not_and] at hx'
    simpa using hx' hx

/-- A loop in which no step takes anything out. -/
theorem insertions_induct {f : Plan → NodeId → Fresh Plan} {motive : Plan → Prop}
    (hq : p.order.foldlM f p next = .ok (q, next')) (start : motive p)
    (step : ∀ r r' id n n', id ∈ r.order → motive r → f r id n = .ok (r', n') →
      motive r' ∧ r.order ⊆ r'.order) : motive q := by
  refine (Fresh.foldlM_keeps (motive := fun r => motive r ∧ p.order ⊆ r.order) hq
    ⟨start, Subset.refl _⟩ ?_).1
  rintro id hid r r' n n' ⟨hmotive, hsub⟩ hstep
  obtain ⟨hmotive', hsub'⟩ := step r r' id n n' (hsub hid) hmotive hstep
  exact ⟨hmotive', Subset.trans hsub hsub'⟩

/-- Such a loop succeeds if each step does, from a plan with what the steps keep. -/
theorem insertions_ok {f : Plan → NodeId → Fresh Plan} {motive : Plan → Prop} (start : motive p)
    (step : ∀ r id n, id ∈ r.order → motive r →
      ∃ r' n', f r id n = .ok (r', n') ∧ motive r' ∧ r.order ⊆ r'.order) (next : Nat) :
    ∃ q next', p.order.foldlM f p next = .ok (q, next') ∧ motive q := by
  rw [Fresh.foldlM_eq]
  have hrun : ∃ t, p.order.foldlM (fun (s : Plan × Nat) id => f s.1 id s.2) (p, next) = .ok t ∧
      motive t.1 ∧ p.order ⊆ t.1.order := by
    refine Result.foldlM_ok (motive := fun _ (s : Plan × Nat) => motive s.1 ∧ p.order ⊆ s.1.order)
      ⟨start, Subset.refl _⟩ fun done a rest s hsplit ⟨hmotive, hsub⟩ => ?_
    have ha : a ∈ p.order := hsplit ▸ by simp
    obtain ⟨r', n', hstep, hmotive', hsub'⟩ := step s.1 a s.2 (hsub ha) hmotive
    exact ⟨(r', n'), hstep, hmotive', Subset.trans hsub hsub'⟩
  obtain ⟨⟨q, next'⟩, hq, hmotive, -⟩ := hrun
  exact ⟨q, next', hq, hmotive⟩

end Plan

end QueryPlan
