import QueryPlan.Proofs.Plan.Redirection
import QueryPlan.Proofs.Pruning.Usage
/-!
# QueryPlan.Proofs.Pruning.Visits

**The order in which readers are adapted.** After the columns of a node moved, `Plan.remapWithin`
visits the nodes that carry them, each once for every path on which it carries them, and lets
the readers of the visited node follow its new columns. Which nodes are visited, and with which
mappings, depends on nothing that a visit changes. So the visits can be listed beforehand
(`Plan.visitsWithin`), and the pass is a loop over this list (`Arranged.remapColumns_eq`).
-/

namespace QueryPlan

open List

@[simp] theorem Operator.carries_mapExprs (f : Expr → Expr) (op : Operator) :
    (op.mapExprs f).carries = op.carries := by
  cases op <;> rfl

@[simp] theorem Operator.carries_mapPositions (f : Nat → Nat) (op : Operator) :
    (op.mapPositions f).carries = op.carries := by
  cases op <;> rfl

@[simp] theorem Node.carries_moved (n : Node) (old new : NodeId) (mapping : Option ColumnMap)
    (columns : List ColumnRef) : (n.moved old new mapping columns).op.carries = n.op.carries := by
  unfold moved movedOp
  dsimp only
  split <;> simp

namespace Plan

/-- Lets the readers of a node follow its columns. -/
def remapAt (p : Plan) (visit : NodeId × ColumnMap) : Result Plan :=
  p.order.foldlM (fun p n => p.replaceInput n visit.1 visit.1 (some visit.2)) p

/-- The nodes that carry the columns of a node and the mappings of their columns, in the order in
which their readers are adapted. -/
def visitsWithin (p : Plan) : Nat → NodeId → ColumnMap → Nat → Result (List (NodeId × ColumnMap))
  | 0, id, _, _ => .fail (.cycle id)
  | fuel + 1, id, mapping, oldWidth => do
    let above ← (p.consumers id).mapM fun n =>
      if (p.op n).carries then
        if (p.op n).isJoin then do
          let (m, w) ← p.joinMapping id mapping oldWidth (p.inputs n) 0 0
          visitsWithin p fuel n m w
        else visitsWithin p fuel n mapping oldWidth
      else .ok []
    return (id, mapping) :: above.flatten

/-- What the visits add for a reader of a node. -/
def visitsOfReader (p : Plan) (fuel : Nat) (id : NodeId) (mapping : ColumnMap) (oldWidth : Nat)
    (n : NodeId) : Result (List (NodeId × ColumnMap)) :=
  if (p.op n).carries then
    if (p.op n).isJoin then do
      let (m, w) ← p.joinMapping id mapping oldWidth (p.inputs n) 0 0
      p.visitsWithin fuel n m w
    else p.visitsWithin fuel n mapping oldWidth
  else .ok []

/-- Adapts what depends on a reader of a node. -/
def remapReader (fuel : Nat) (id : NodeId) (mapping : ColumnMap) (oldWidth : Nat) (p : Plan)
    (n : NodeId) : Result Plan :=
  if (p.op n).carries then
    if (p.op n).isJoin then do
      let (m, w) ← p.joinMapping id mapping oldWidth (p.inputs n) 0 0
      remapWithin fuel p n m w
    else remapWithin fuel p n mapping oldWidth
  else .ok p

/-- Plans that differ in nothing but expressions and positions. -/
structure SameSkeleton (p q : Plan) : Prop extends SameShape p q where
  order_eq : q.order = p.order
  carries_eq : ∀ id, (q.op id).carries = (p.op id).carries

variable {p q r : Plan} {id n x : NodeId} {mapping : ColumnMap} {fuel oldWidth : Nat}
  {visits : List (NodeId × ColumnMap)}

theorem SameSkeleton.refl (p : Plan) : SameSkeleton p p :=
  { SameShape.refl p with order_eq := rfl, carries_eq := fun _ => rfl }

theorem SameSkeleton.trans (hpq : SameSkeleton p q) (hqr : SameSkeleton q r) : SameSkeleton p r :=
  { hpq.toSameShape.trans hqr.toSameShape with
    order_eq := hqr.order_eq.trans hpq.order_eq
    carries_eq := fun id => (hqr.carries_eq id).trans (hpq.carries_eq id) }

theorem SameSkeleton.consumers_eq (h : SameSkeleton p q) (id : NodeId) :
    q.consumers id = p.consumers id := by
  rw [consumers, consumers, h.order_eq, funext h.inputs_eq]

theorem SameSkeleton.arranged (h : SameSkeleton p q) (hp : p.Arranged p.order) :
    q.Arranged q.order := by
  rw [h.order_eq]
  exact hp.of_sameShape h.toSameShape

/-- A node that is read in place of itself changes no inputs. -/
theorem Redirection.sameSkeleton {changed : List NodeId}
    (hr : Redirection p q x x (some mapping) changed) : SameSkeleton p q where
  size_eq := hr.size_eq
  inputs_eq n := by
    by_cases hn : n ∈ changed
    · rw [hr.inputs_eq hn]
      refine (map_congr_left fun i _ => ?_).trans (map_id _)
      unfold NodeId.replaced
      split
      · next h => rw [h]; rfl
      · rfl
    · exact hr.inputs_other hn
  layout_eq := hr.op_layout
  arity_eq := hr.op_arity
  order_eq := hr.order_eq
  carries_eq n := by
    by_cases hn : n ∈ changed
    · rw [Plan.op, hr.node_eq n hn, Node.carries_moved]
      rfl
    · rw [hr.op_other hn]

/-- A loop in which a node is read in place of itself changes none of its inputs. -/
theorem Arranged.steady_self (h : p.Arranged p.order) (hx : x ∈ p.order) :
    p.Steady p.order x x p.order := by
  refine ⟨h, hx, fun n _ _ => ?_⟩
  refine (map_congr_left fun i _ => ?_).trans (map_id _)
  unfold NodeId.replaced
  split
  · next heq => rw [heq]; rfl
  · rfl

/-- Letting the readers of a live node follow it changes every live node in the same way. -/
theorem remapAt_redirection (h : p.Arranged p.order) (hx : x ∈ p.order)
    (hq : p.remapAt (x, mapping) = .ok q) :
    Redirection p q x x (some mapping) p.order :=
  foldlM_replaceInput_redirection hq h.nodup h.inArena (h.steady_self hx)

/-- The widths of a plan tell where the columns of a join are. -/
theorem joinMapping_congr {ids l : List NodeId} (h : SameShape p q) (hp : p.Arranged l)
    (hids : ∀ i ∈ ids, i ∈ l) (mapping : ColumnMap) (oldWidth old new : Nat) :
    q.joinMapping id mapping oldWidth ids old new = p.joinMapping id mapping oldWidth ids old new := by
  induction ids generalizing old new with
  | nil => rfl
  | cons i rest ih =>
      have hi := hids i mem_cons_self
      have hrest := fun j hj => hids j (mem_cons_of_mem _ hj)
      rw [joinMapping, joinMapping, (hp.of_sameShape h).width_eq hi, hp.width_eq hi,
        h.columnCount_eq]
      simp only [ih hrest]

/-- The columns of a join can be mapped, since its inputs have widths. -/
theorem Arranged.joinMapping_ok {ids l : List NodeId} (h : p.Arranged l) (hids : ∀ i ∈ ids, i ∈ l)
    (id : NodeId) (mapping : ColumnMap) (oldWidth old new : Nat) :
    ∃ s, p.joinMapping id mapping oldWidth ids old new = .ok s := by
  induction ids generalizing old new with
  | nil => exact ⟨_, rfl⟩
  | cons i rest ih =>
      obtain ⟨hi, hrest⟩ := forall_mem_cons.mp hids
      rw [joinMapping, Result.bind_ok (h.width_eq hi)]
      by_cases heq : i = id
      · obtain ⟨s, hs⟩ := ih hrest (old + oldWidth) (new + p.columnCount i)
        rw [if_pos heq]
        exact ⟨_, Result.bind_ok hs⟩
      · obtain ⟨s, hs⟩ := ih hrest (old + p.columnCount i) (new + p.columnCount i)
        rw [if_neg heq]
        exact ⟨_, Result.bind_ok hs⟩

/-! ### The list of visits -/

theorem visitsWithin_succ_eq_ok :
    p.visitsWithin (fuel + 1) id mapping oldWidth = .ok visits ↔
      ∃ above, (p.consumers id).mapM (p.visitsOfReader fuel id mapping oldWidth) = .ok above ∧
        visits = (id, mapping) :: above.flatten := by
  refine Result.bind_eq_ok.trans (exists_congr fun above => and_congr_right fun _ => ?_)
  exact Result.pure_eq_ok.trans eq_comm

theorem visitsOfReader_eq_ok (h : p.visitsOfReader fuel id mapping oldWidth n = .ok visits) :
    ((p.op n).carries = false ∧ visits = []) ∨
      ((p.op n).carries = true ∧ ∃ m w, p.visitsWithin fuel n m w = .ok visits ∧
        ((p.op n).isJoin = true →
          p.joinMapping id mapping oldWidth (p.inputs n) 0 0 = .ok (m, w)) ∧
        ((p.op n).isJoin = false → m = mapping ∧ w = oldWidth)) := by
  unfold visitsOfReader at h
  split at h
  · next hop =>
    refine .inr ⟨hop, ?_⟩
    split at h
    · next hjoin =>
      obtain ⟨⟨m, w⟩, hmapping, h⟩ := Result.bind_eq_ok.mp h
      exact ⟨m, w, h, fun _ => hmapping, by simp [hjoin]⟩
    · next hjoin => exact ⟨mapping, oldWidth, h, by simp [hjoin], fun _ => ⟨rfl, rfl⟩⟩
  · next hop => exact .inl ⟨by simpa using hop, (Except.ok.inj h).symm⟩

theorem Carries.mem_order (h : p.Carries id x) (hid : id ∈ p.order) : x ∈ p.order := by
  induction h with
  | refl id => exact hid
  | up hn _ _ ih => exact ih (mem_consumers.mp hn).1

/-- Every node that carries the columns of a node is visited. -/
theorem Carries.mem_visits (h : p.Carries id x)
    (hvisits : p.visitsWithin fuel id mapping oldWidth = .ok visits) :
    ∃ m, (x, m) ∈ visits := by
  induction h generalizing fuel mapping oldWidth visits with
  | refl id =>
      cases fuel with
      | zero => cases hvisits
      | succ fuel =>
          obtain ⟨above, -, rfl⟩ := visitsWithin_succ_eq_ok.mp hvisits
          exact ⟨mapping, mem_cons_self⟩
  | @up id n x hn hcarries _ ih =>
      cases fuel with
      | zero => cases hvisits
      | succ fuel =>
          obtain ⟨above, habove, rfl⟩ := visitsWithin_succ_eq_ok.mp hvisits
          obtain ⟨sub, hsub, hrun⟩ := Result.mapM_mem_left habove hn
          obtain ⟨-, m, w, hrun, -⟩ :=
            (visitsOfReader_eq_ok hrun).resolve_left fun h => by simp [hcarries] at h
          obtain ⟨m, hm⟩ := ih hrun
          exact ⟨m, mem_cons_of_mem _ (mem_flatten.mpr ⟨sub, hsub, hm⟩)⟩

/-- Only nodes that carry the columns of a node are visited. -/
theorem carries_of_mem_visits (hvisits : p.visitsWithin fuel id mapping oldWidth = .ok visits) :
    ∀ v ∈ visits, p.Carries id v.1 := by
  induction fuel generalizing id mapping oldWidth visits with
  | zero => cases hvisits
  | succ fuel ih =>
      obtain ⟨above, habove, rfl⟩ := visitsWithin_succ_eq_ok.mp hvisits
      intro v hv
      rcases mem_cons.mp hv with rfl | hv
      · exact .refl id
      · obtain ⟨sub, hsub, hv⟩ := mem_flatten.mp hv
        obtain ⟨n, hn, hrun⟩ := Result.mapM_mem_right habove hsub
        rcases visitsOfReader_eq_ok hrun with ⟨-, rfl⟩ | ⟨hcarries, m, w, hrun, -⟩
        · exact absurd hv not_mem_nil
        · exact .up hn hcarries (ih hrun v hv)

/-- The visits can be listed if the walk may go as far as there are nodes further back. -/
theorem Arranged.visitsWithin_ok (h : p.Arranged p.order) {pre post : List NodeId}
    (horder : p.order = pre ++ id :: post) (hfuel : post.length < fuel) (mapping : ColumnMap)
    (oldWidth : Nat) : ∃ visits, p.visitsWithin fuel id mapping oldWidth = .ok visits := by
  induction fuel generalizing id pre post mapping oldWidth with
  | zero => exact absurd hfuel (Nat.not_lt_zero _)
  | succ fuel ih =>
      have hreaders : ∀ n ∈ p.consumers id,
          ∃ sub, p.visitsOfReader fuel id mapping oldWidth n = .ok sub := by
        intro n hn
        obtain ⟨hlive, hread⟩ := mem_consumers.mp hn
        have hbehind : n ∈ post :=
          mem_right_of_pair (horder ▸ h.before n hlive id hread) (horder ▸ h.nodup)
        obtain ⟨between, rest, rfl⟩ := append_of_mem hbehind
        rw [length_append, length_cons] at hfuel
        have hsplit : p.order = (pre ++ id :: between) ++ n :: rest := by simp [horder]
        have hnext := ih hsplit (by omega)
        unfold visitsOfReader
        split
        · split
          · obtain ⟨⟨m, w⟩, hm⟩ := h.joinMapping_ok (fun i hi => h.mem_of_input hlive hi)
              id mapping oldWidth 0 0
            rw [Result.bind_ok hm]
            exact hnext m w
          · exact hnext mapping oldWidth
        · exact ⟨_, rfl⟩
      obtain ⟨above, habove⟩ := Result.exists_mapM hreaders
      exact ⟨_, visitsWithin_succ_eq_ok.mpr ⟨above, habove, rfl⟩⟩

/-! ### The loop over the visits -/

theorem remapWithin_succ (p : Plan) (fuel : Nat) (id : NodeId) (mapping : ColumnMap)
    (oldWidth : Nat) : remapWithin (fuel + 1) p id mapping oldWidth =
      p.remapAt (id, mapping) >>= fun p =>
        (p.consumers id).foldlM (remapReader fuel id mapping oldWidth) p := by
  rw [remapWithin]
  congr 1
  funext p
  congr 1
  funext p n
  unfold remapReader
  cases p.op n <;> rfl

theorem foldlM_remapAt_sameSkeleton (hp : p.Arranged p.order) (hr : SameSkeleton p r)
    (hlive : ∀ v ∈ visits, v.1 ∈ p.order) (hq : visits.foldlM remapAt r = .ok q) :
    SameSkeleton p q :=
  Result.foldlM_keeps hq hr fun v hv _ _ hs ht =>
    hs.trans (remapAt_redirection (hs.arranged hp) (hs.order_eq ▸ hlive v hv) ht).sameSkeleton

/-- Adapting the readers of a node is a loop over the visits. -/
theorem remapWithin_eq (hp : p.Arranged p.order) (hr : SameSkeleton p r) (hid : id ∈ p.order)
    (hvisits : p.visitsWithin fuel id mapping oldWidth = .ok visits) :
    remapWithin fuel r id mapping oldWidth = visits.foldlM remapAt r := by
  induction fuel generalizing id mapping oldWidth r visits with
  | zero => cases hvisits
  | succ fuel ih =>
      obtain ⟨above, habove, rfl⟩ := visitsWithin_succ_eq_ok.mp hvisits
      rw [remapWithin_succ, foldlM_cons]
      refine Result.bind_congr fun s hs => ?_
      have hps : SameSkeleton p s := hr.trans
        (remapAt_redirection (hr.arranged hp) (hr.order_eq ▸ hid) hs).sameSkeleton
      rw [hps.consumers_eq]
      -- The readers one after another, each with the visits above it.
      refine Result.foldlM_flatten (motive := SameSkeleton p) habove hps fun n hn sub t hrun ht => ?_
      obtain ⟨hlive, -⟩ := mem_consumers.mp hn
      unfold remapReader
      rw [ht.carries_eq, ht.isJoin_eq, ht.inputs_eq, joinMapping_congr ht.toSameShape hp
        (fun i => hp.mem_of_input hlive)]
      rcases visitsOfReader_eq_ok hrun with ⟨hop, rfl⟩ | ⟨hop, m, w, hsub, hjoin, hplain⟩
      · rw [hop]
        exact ⟨rfl, fun u hu => Result.pure_eq_ok.mp hu ▸ ht⟩
      rw [if_pos hop]
      refine ⟨?_, fun u => foldlM_remapAt_sameSkeleton hp ht fun v hv =>
        (carries_of_mem_visits hsub v hv).mem_order hlive⟩
      cases hkind : (p.op n).isJoin with
      | true => exact (Result.bind_ok (hjoin hkind)).trans (ih ht hlive hsub)
      | false =>
          obtain ⟨rfl, rfl⟩ := hplain hkind
          exact ih ht hlive hsub

/-- After the columns of a node moved, what reads it is adapted in a loop over the visits. -/
theorem Arranged.remapColumns_eq (h : p.Arranged p.order) (hid : id ∈ p.order)
    (mapping : ColumnMap) (oldWidth : Nat) :
    ∃ visits, p.visitsWithin (p.walkBound + 1) id mapping oldWidth = .ok visits ∧
      p.remapColumns id mapping oldWidth = visits.foldlM remapAt p := by
  obtain ⟨pre, post, horder⟩ := append_of_mem hid
  have hlength := h.toOrdered.length_le
  rw [horder, length_append, length_cons] at hlength
  have hfuel : post.length < p.walkBound + 1 := by
    rw [walkBound]
    omega
  obtain ⟨visits, hvisits⟩ := h.visitsWithin_ok horder hfuel mapping oldWidth
  exact ⟨visits, hvisits, remapWithin_eq h (.refl p) hid hvisits⟩

end Plan

end QueryPlan
