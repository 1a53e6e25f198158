import QueryPlan.Proofs.ChainFusion.Stopping
import QueryPlan.Proofs.Success.Fusion
import Mathlib.Tactic.Ring
/-!
# QueryPlan.Proofs.ChainFusion.Termination

**The walk that fuses chains visits every place,** whatever the plan. A step that comes to a new
place has one place less to visit. Between two such steps the walk only goes to later places, and at
each of them it begins anew at most once (`step_moves`). So `remaining` bounds the steps that are
left (`InPlaces.step_remaining`), and the loop that goes on until every place was visited ends
(`InPlaces.exists_ends`), after fewer steps than the pass allows for.

Inside of a step, sources are replaced in sources down to a depth. That is no bound either
(`Fusion.inlineSources_exact`): a replacement that gives up there has no end, and uses up the stack.
This is one of the errors with which the walk may end, and no readable plan meets it.
-/

namespace QueryPlan

open List Plan

namespace ChainWalk

variable {w w' : ChainWalk} {joinRoots : List NodeId} {next next' : Nat}

/-- The visited places and the current one are places of the walk, and none is listed twice. -/
structure InPlaces (w : ChainWalk) : Prop where
  nodup : w.visited.Nodup
  visited : ∀ i ∈ w.visited, i < w.slots.length
  place : ∀ i ∈ w.place, i < w.slots.length

/-- How a step moves on from the current place, once that is visited. -/
inductive Moves (w w' : ChainWalk) : Prop
  /-- The chain grows and the walk follows it. -/
  | forth {i : Nat} : w.place = some i → w'.stage ≠ .start →
    (∀ k ∈ w'.place, i < k ∧ k < w.slots.length) → Moves w w'
  /-- The chain is closed or dropped, and the next one may begin at the same place. -/
  | again : w.stage ≠ .start → w'.stage = .start → w'.place = w.place → Moves w w'
  | back : w'.place = w.toUnvisited.place → Moves w w'

/-- A bound for the steps until the walk comes to a new place. -/
def distance (w : ChainWalk) : Nat :=
  let turn := if w.stage = .start then 1 else 2
  match w.place with
  | some i => if w.visited.contains i then 2 * (w.slots.length - i) + turn else 0
  | none => turn

/-- A bound for the steps until the walk is done. -/
def remaining (w : ChainWalk) : Nat :=
  (w.slots.length - w.visited.length) * (2 * w.slots.length + 3) + w.distance

/-! ### Visited places -/

theorem visit_of_new {i : Nat} (hplace : w.place = some i) (hi : i ∉ w.visited) :
    w.visit = { w with visited := i :: w.visited } := by
  unfold visit
  rw [hplace]
  dsimp only
  rw [if_neg (by simpa using hi)]

theorem visit_of_visited (h : ∀ i ∈ w.place, i ∈ w.visited) : w.visit = w := by
  unfold visit
  split
  · next i hplace => rw [if_pos (by simpa using h i hplace)]
  · rfl

/-- The current place is visited, or a visit leaves one place less. -/
theorem visit_cases (w : ChainWalk) :
    w.visit = w ∨ ∃ i, w.place = some i ∧ i ∉ w.visited ∧
      w.visit = { w with visited := i :: w.visited } := by
  by_cases h : ∀ i ∈ w.place, i ∈ w.visited
  · exact .inl (visit_of_visited h)
  · push Not at h
    obtain ⟨i, hplace, hi⟩ := h
    exact .inr ⟨i, hplace, hi, visit_of_new hplace hi⟩

@[simp] theorem slots_visit (w : ChainWalk) : w.visit.slots = w.slots := by
  rcases w.visit_cases with heq | ⟨i, -, -, heq⟩ <;> rw [heq]

theorem plan_visit (w : ChainWalk) : w.visit.plan = w.plan := by
  rcases w.visit_cases with heq | ⟨i, -, -, heq⟩ <;> rw [heq]

theorem mem_visited_visit {i : Nat} (hplace : w.place = some i) : i ∈ w.visit.visited := by
  by_cases hi : i ∈ w.visited
  · rwa [visit_of_visited fun j hj => Option.some.inj (hplace.symm.trans hj) ▸ hi]
  · rw [visit_of_new hplace hi]
    exact mem_cons_self

theorem InPlaces.visit (h : w.InPlaces) : w.visit.InPlaces := by
  rcases w.visit_cases with heq | ⟨i, hplace, hi, heq⟩ <;> rw [heq]
  · exact h
  · exact ⟨nodup_cons.mpr ⟨hi, h.nodup⟩, forall_mem_cons.mpr ⟨h.place i hplace, h.visited⟩, h.place⟩

/-- A walk that is done has visited every place. -/
theorem InPlaces.visited_perm (h : w.InPlaces) (hdone : w.isDone = true) :
    w.visited.Perm (range w.slots.length) := by
  have hsubset : w.visited ⊆ range w.slots.length := fun i hi => mem_range.mpr (h.visited i hi)
  refine (h.nodup.subperm hsubset).perm_of_length_le ?_
  rw [length_range]
  exact of_decide_eq_true hdone

theorem InPlaces.mem_visited (h : w.InPlaces) (hdone : w.isDone = true) {i : Nat}
    (hi : i < w.slots.length) : i ∈ w.visited :=
  (h.visited_perm hdone).mem_iff.mpr (mem_range.mpr hi)

/-- The place that the walk returns to is the first one that it has not visited. -/
theorem toUnvisited_place_eq_some {i : Nat} (h : w.toUnvisited.place = some i) :
    i < w.slots.length ∧ i ∉ w.visited ∧ ∀ k < i, k ∈ w.visited := by
  obtain ⟨hi, hnew, hbefore⟩ := find?_range_eq_some.mp h
  refine ⟨mem_range.mp hnew, by simpa using hi, fun k hk => ?_⟩
  simpa using hbefore k hk

/-- A walk that is not done returns to a place. -/
theorem toUnvisited_isSome (hdone : w.isDone = false) : w.toUnvisited.place.isSome = true := by
  change (find? _ (range w.slots.length)).isSome = true
  rw [find?_isSome]
  by_contra hnone
  push Not at hnone
  have hsubset : range w.slots.length ⊆ w.visited := fun i hi => by simpa using hnone i hi
  have hlength := (nodup_range.subperm hsubset).length_le
  rw [length_range] at hlength
  exact absurd hlength (of_decide_eq_false hdone)

/-! ### Steps -/

theorem length_clear {α : Type} (places : List Nat) (slots : List (Option α)) :
    (places.foldl (fun slots i => slots.set i none) slots).length = slots.length := by
  induction places generalizing slots with
  | nil => rfl
  | cons i places ih => rw [foldl_cons, ih, length_set]

@[simp] theorem length_fusedSlots (w : ChainWalk) (place : Nat) :
    (w.fusedSlots place).length = w.slots.length := by
  rw [fusedSlots, length_set, length_clear]

theorem nextStage?_ne_start {p : Plan} {stage next : ChainStage} {id : NodeId}
    (h : p.nextStage? joinRoots stage id = some next) : next ≠ .start := by
  rcases nextStage?_eq_some h with ⟨-, rfl, -⟩ | ⟨-, rfl, -⟩ | ⟨-, rfl, -⟩ | ⟨-, rfl, -⟩ <;> decide

/-- A fusion changes what stands at the places. It visits none and stays where it is. -/
theorem fuse_places (hfuse : w.fuse next = .ok (w', next')) :
    w'.slots.length = w.slots.length ∧ w'.visited = w.visited ∧ w'.place = w.place := by
  obtain ⟨_, _, -, hfuse⟩ := Fresh.bind_eq_ok.mp hfuse
  obtain ⟨ids, _, -, hfuse⟩ := Fresh.bind_eq_ok.mp hfuse
  generalize ids.getLast? = last?, w.chain.getLast? = place? at hfuse
  match ids, last?, place?, hfuse with
  | first :: _, some last, some place, hfuse =>
      obtain ⟨q, _, -, hfuse⟩ := Fresh.bind_eq_ok.mp hfuse
      obtain ⟨rfl, -⟩ := Fresh.pure_eq_ok.mp hfuse
      exact ⟨length_fusedSlots _ _, rfl, rfl⟩
  | [], _, _, hfuse | _ :: _, none, _, hfuse | _ :: _, some _, none, hfuse =>
      obtain ⟨rfl, -⟩ := Fresh.pure_eq_ok.mp hfuse
      exact ⟨rfl, rfl, rfl⟩

/-- What a step does to the places. -/
theorem step_moves (hstep : w.step joinRoots next = .ok (w', next')) :
    w'.slots.length = w.visit.slots.length ∧ w'.visited = w.visit.visited ∧
      w.visit.Moves w' := by
  rcases w.step_cases joinRoots with
    ⟨found, hnext, heq⟩ | ⟨-, ⟨-, heq⟩ | ⟨hstage, heq⟩ | ⟨u, hcloses, heq⟩⟩ <;> rw [heq] at hstep
  · obtain ⟨rfl, -⟩ := Fresh.pure_eq_ok.mp hstep
    obtain ⟨id, hcurrent, hreached⟩ := advance?_eq_some hnext
    refine ⟨rfl, rfl, .forth (current?_eq_some hcurrent).1 (nextStage?_ne_start hreached) ?_⟩
    intro k hk
    obtain ⟨⟨i, m⟩, hsame, huse⟩ := Option.bind_eq_some_iff.mp hk
    cases hcurrent.symm.trans hsame
    obtain ⟨⟨n, hn, hlt, -⟩, -⟩ := onlyUse?_eq_some_iff.mp huse
    exact ⟨hlt, lt_length_of_slot hn⟩
  · obtain ⟨rfl, -⟩ := Fresh.pure_eq_ok.mp hstep
    exact ⟨rfl, rfl, .back rfl⟩
  · obtain ⟨rfl, -⟩ := Fresh.pure_eq_ok.mp hstep
    refine ⟨rfl, rfl, .again (fun hstart => ?_) rfl rfl⟩
    rcases hstage with hstage | ⟨hstage, -⟩ <;> cases hstart.symm.trans hstage
  · obtain ⟨fused, n, hfused, hstep⟩ := Fresh.bind_eq_ok.mp hstep
    obtain ⟨rfl, -⟩ := Fresh.pure_eq_ok.mp hstep
    obtain ⟨hlength, hvisited, hplace⟩ := fuse_places hfused
    cases hcloses with
    | whole hstage =>
        refine ⟨hlength, hvisited, .again (fun hstart => ?_) rfl hplace⟩
        rcases hstage with hstage | ⟨hstage, -⟩ <;> cases hstart.symm.trans hstage
    | ended => exact ⟨hlength, hvisited, .back hplace⟩

/-- A step stays in the places of the walk. -/
theorem InPlaces.step (hw : w.InPlaces) (hstep : w.step joinRoots next = .ok (w', next')) :
    w'.InPlaces := by
  obtain ⟨hlength, hvisited, hmoves⟩ := step_moves hstep
  have hv := hw.visit
  refine ⟨hvisited ▸ hv.nodup, by rw [hvisited, hlength]; exact hv.visited, fun k hk => ?_⟩
  rw [hlength]
  cases hmoves with
  | forth _ _ hplace => exact (hplace k hk).2
  | again _ _ hplace => exact hv.place k (hplace ▸ hk)
  | back hplace => exact (toUnvisited_place_eq_some (hplace.symm.trans hk)).1

theorem distance_le (w : ChainWalk) : w.distance ≤ 2 * w.slots.length + 2 := by
  have hturn : (if w.stage = .start then 1 else 2) ≤ 2 := by split <;> decide
  unfold distance
  dsimp only
  split
  · split <;> omega
  · omega

/-- A walk at a new place has come to one. -/
theorem distance_of_new {i : Nat} (hplace : w.place = some i) (hi : i ∉ w.visited) :
    w.distance = 0 := by
  unfold distance
  rw [hplace]
  dsimp only
  rw [if_neg (by simpa using hi)]

/-- Unless it comes to a new place, a step comes nearer to one. -/
theorem Moves.distance_lt (hmoves : w.Moves w') (hw : w.InPlaces)
    (hcurrent : ∀ i ∈ w.place, i ∈ w.visited) (hdone : w.isDone = false)
    (hlength : w'.slots.length = w.slots.length) (hvisited : w'.visited = w.visited) :
    w'.distance < w.distance := by
  have hpos : 0 < w.distance := by
    unfold distance
    dsimp only
    split
    · next i hplace =>
      rw [if_pos (by simpa using hcurrent i hplace)]
      split <;> omega
    · split <;> decide
  cases hmoves with
  | @forth i hplace hstage hlater =>
      have hi := hw.place i hplace
      have hbefore : 2 * (w.slots.length - i) + 1 ≤ w.distance := by
        unfold distance
        rw [hplace]
        dsimp only
        rw [if_pos (by simpa using hcurrent i hplace)]
        split <;> omega
      refine Nat.lt_of_lt_of_le ?_ hbefore
      unfold distance
      dsimp only
      rw [if_neg hstage, hlength]
      split
      · next k hk =>
        obtain ⟨hik, hk⟩ := hlater k hk
        split <;> omega
      · omega
  | again hstage hstart hplace =>
      unfold distance
      dsimp only
      rw [if_neg hstage, if_pos hstart, hlength, hvisited, hplace]
      split
      · next i hi =>
        rw [if_pos (by simpa using hcurrent i hi), if_pos (by simpa using hcurrent i hi)]
        exact Nat.lt_succ_self _
      · decide
  | back hplace =>
      obtain ⟨i, hi⟩ := Option.isSome_iff_exists.mp (toUnvisited_isSome hdone)
      rw [distance_of_new (hplace.trans hi) (hvisited ▸ (toUnvisited_place_eq_some hi).2.1)]
      exact hpos

/-- A step leaves fewer steps. -/
theorem InPlaces.step_remaining (hw : w.InPlaces) (hdone : w.isDone = false)
    (hstep : w.step joinRoots next = .ok (w', next')) : w'.remaining < w.remaining := by
  obtain ⟨hlength, hvisited, hmoves⟩ := step_moves hstep
  rcases w.visit_cases with heq | ⟨i, hplace, hi, heq⟩
  · rw [heq] at hlength hvisited hmoves
    have hcurrent : ∀ i ∈ w.place, i ∈ w.visited := fun i hi => heq ▸ mem_visited_visit hi
    rw [remaining, remaining, hlength, hvisited]
    exact Nat.add_lt_add_left (hmoves.distance_lt hw hcurrent hdone hlength hvisited) _
  · rw [heq] at hlength hvisited
    have hleft : w.visited.length < w.slots.length := Nat.lt_of_not_le (of_decide_eq_false hdone)
    have hdistance := w'.distance_le
    rw [hlength] at hdistance
    rw [remaining, hlength, hvisited, length_cons, remaining]
    obtain ⟨left, hleft⟩ := Nat.exists_eq_add_of_lt hleft
    dsimp only at hdistance ⊢
    rw [show w.slots.length - w.visited.length = left + 1 by omega,
      show w.slots.length - (w.visited.length + 1) = left by omega, Nat.add_one_mul left]
    omega

/-- A walk that is not done has steps left. -/
theorem remaining_pos (hdone : w.isDone = false) : 0 < w.remaining := by
  have hleft : w.visited.length < w.slots.length := Nat.lt_of_not_le (of_decide_eq_false hdone)
  unfold remaining
  exact Nat.add_pos_left (Nat.mul_pos (by omega) (by omega)) _

/-- A step stops the program only if it fuses a chain for which the sources have no end. -/
theorem step_stops (w : ChainWalk) (joinRoots : List NodeId) (next : Nat) :
    Result.StopsOnlyIf (∃ chain, (∀ id ∈ chain, some id ∈ w.slots) ∧ w.plan.Circular chain)
      (w.step joinRoots next) := by
  rcases w.step_cases joinRoots with ⟨_, -, heq⟩ | ⟨-, ⟨-, heq⟩ | ⟨-, heq⟩ | ⟨u, hcloses, heq⟩⟩ <;>
    rw [heq]
  · exact .ok
  · exact .ok
  · exact .ok
  · obtain ⟨hslots, hplan⟩ : u.slots = w.slots ∧ u.plan = w.plan := by
      cases hcloses with
      | whole => exact ⟨slots_visit w, plan_visit w⟩
      | ended => exact ⟨slots_visit w, plan_visit w⟩
    rw [← hslots, ← hplan]
    exact .run_bind (u.fuse_stops next) fun _ _ _ => .ok

/-! ### The walk as a loop -/

/-- The walk goes on as long as it is not done and no step is refused. It ends after a number of
steps, with the walk that is done or with the error of the last step. -/
inductive Ends (joinRoots : List NodeId) : ChainWalk → Nat → Nat → Result (ChainWalk × Nat) → Prop
  | done {w : ChainWalk} {next : Nat} : w.isDone = true → Ends joinRoots w next 0 (.ok (w, next))
  | refused {w : ChainWalk} {next : Nat} {e : Error} : w.isDone = false →
    w.step joinRoots next = .error e → Ends joinRoots w next 1 (.error e)
  | goOn {w w' : ChainWalk} {next next' count : Nat} {outcome : Result (ChainWalk × Nat)} :
    w.isDone = false → w.step joinRoots next = .ok (w', next') →
    Ends joinRoots w' next' count outcome → Ends joinRoots w next (count + 1) outcome

variable {count fuel : Nat} {outcome : Result (ChainWalk × Nat)}

/-- A run with steps to spare ends like the loop. -/
theorem Ends.run_eq (h : w.Ends joinRoots next count outcome) (hfuel : count ≤ fuel) :
    w.run joinRoots fuel next = outcome := by
  induction h generalizing fuel with
  | done hdone =>
      cases fuel with
      | zero => rfl
      | succ fuel =>
          rw [ChainWalk.run, if_pos hdone]
          rfl
  | @refused w next e hdone hstep =>
      obtain ⟨fuel, rfl⟩ := Nat.exists_eq_add_of_le' hfuel
      rw [ChainWalk.run, if_neg (Bool.eq_false_iff.mp hdone)]
      change (w.step joinRoots next >>= fun s => ChainWalk.run joinRoots fuel s.1 s.2) = _
      rw [hstep]
      rfl
  | goOn hdone hstep _ ih =>
      obtain ⟨fuel, rfl⟩ : ∃ n, fuel = n + 1 := Nat.exists_eq_succ_of_ne_zero (by omega)
      rw [ChainWalk.run, if_neg (Bool.eq_false_iff.mp hdone), Fresh.bind_ok hstep]
      exact ih (Nat.le_of_succ_le_succ hfuel)

/-- A walk that comes to its end has as many places as at the beginning, and they are visited. -/
theorem Ends.isDone (h : w.Ends joinRoots next count outcome) (hw : w.InPlaces)
    (hok : outcome = .ok (w', next')) :
    w'.isDone = true ∧ w'.InPlaces ∧ w'.slots.length = w.slots.length := by
  induction h with
  | done hdone =>
      cases hok
      exact ⟨hdone, hw, rfl⟩
  | refused => cases hok
  | goOn _ hstep _ ih =>
      obtain ⟨hdone, hw', hlength⟩ := ih (hw.step hstep) hok
      have hkept := (step_moves hstep).1
      exact ⟨hdone, hw', by simpa using hlength.trans hkept⟩

/-- The loop stops the program only at a walk in which the sources of a chain have no end. -/
theorem Ends.stops (h : w.Ends joinRoots next count outcome) :
    Result.StopsOnlyIf (∃ steps u n, w.run joinRoots steps next = .ok (u, n) ∧
      ∃ chain, (∀ id ∈ chain, some id ∈ u.slots) ∧ u.plan.Circular chain) outcome := by
  induction h with
  | done => exact .ok
  | @refused w next e _ hstep =>
      intro err herr hfatal
      obtain rfl := Except.error.inj herr
      exact ⟨0, w, next, rfl, w.step_stops joinRoots next e hstep hfatal⟩
  | @goOn w w' next next' _ _ hdone hstep _ ih =>
      intro err herr hfatal
      obtain ⟨steps, u, n, hrun, hchain⟩ := ih err herr hfatal
      refine ⟨steps + 1, u, n, ?_, hchain⟩
      rw [ChainWalk.run, if_neg (Bool.eq_false_iff.mp hdone), Fresh.bind_ok hstep]
      exact hrun

/-- The loop ends, after no more steps than are left. -/
theorem InPlaces.exists_ends (hw : w.InPlaces) (joinRoots : List NodeId) (next : Nat) :
    ∃ count ≤ w.remaining, ∃ outcome, w.Ends joinRoots next count outcome := by
  induction hleft : w.remaining using Nat.strong_induction_on generalizing w next with
  | h left ih =>
      subst hleft
      cases hdone : w.isDone with
      | true => exact ⟨0, Nat.zero_le _, _, .done hdone⟩
      | false =>
          cases hstep : w.step joinRoots next with
          | error e => exact ⟨1, remaining_pos hdone, _, .refused hdone hstep⟩
          | ok s =>
              obtain ⟨w', next'⟩ := s
              -- The step leaves fewer steps, so the rest of the loop ends.
              have hless := hw.step_remaining hdone hstep
              obtain ⟨count, hcount, outcome, hends⟩ := ih _ hless (hw.step hstep) next' rfl
              exact ⟨count + 1, Nat.lt_of_le_of_lt hcount hless, outcome, .goOn hdone hstep hends⟩

/-- With a step for each that is left, a run is done in the end. -/
theorem InPlaces.isDone_of_run (hw : w.InPlaces) (hfuel : w.remaining ≤ fuel)
    (hrun : w.run joinRoots fuel next = .ok (w', next')) :
    w'.isDone = true ∧ w'.InPlaces := by
  obtain ⟨count, hcount, outcome, hends⟩ := hw.exists_ends joinRoots next
  have hrun' := hends.run_eq (Nat.le_trans hcount hfuel)
  obtain ⟨hdone, hw', -⟩ := hends.isDone hw (hrun'.symm.trans hrun)
  exact ⟨hdone, hw'⟩

theorem inPlaces_ofPlan (p : Plan) : (ofPlan p).InPlaces := by
  refine ⟨nodup_nil, nofun, fun i hi => ?_⟩
  change i ∈ (if p.order.isEmpty then none else some 0) at hi
  change i < (p.order.map some).length
  split at hi
  · cases hi
  · next hempty =>
    obtain rfl := Option.some.inj hi
    rw [length_map, length_pos_iff]
    simpa using hempty

/-- The pass allows for enough steps. -/
theorem remaining_ofPlan_lt (p : Plan) : (ofPlan p).remaining < stepBound p.order.length := by
  have hdistance := (ofPlan p).distance_le
  have hlength : (ofPlan p).slots.length = p.order.length := length_map ..
  rw [hlength] at hdistance
  rw [remaining, hlength]
  change (p.order.length - 0) * _ + _ < 2 * (p.order.length + 2) * (p.order.length + 2)
  rw [Nat.sub_zero, show 2 * (p.order.length + 2) * (p.order.length + 2) =
    p.order.length * (2 * p.order.length + 3) + (5 * p.order.length + 8) by ring]
  omega

end ChainWalk

/-! ### The pass -/

/-- Groups of a projection that refers to the keys of the groups, which nobody could read. -/
def keysOfKeys : Plan :=
  let negated : Expr := .app (.operator .not .condition) [.column ⟨⟨2⟩, 0⟩]
  { arena := #[.make 0 [] (.values ⟨[], [[]]⟩),
      .make 1 [⟨0⟩] (.project (.plain [negated] ["x"])),
      .make 2 [⟨1⟩] (.aggregate ⟨1, [], ["x"], false⟩),
      .make 3 [⟨2⟩] (.project (.plain [negated] ["x"]))]
    order := (range 4).map NodeId.mk }

example : keysOfKeys.fuseChains [] 4 = .error (.of .endlessSources) := rfl

end QueryPlan
