import QueryPlan.Plan.Output
import QueryPlan.Proofs.Operator.Layout
import QueryPlan.Proofs.Plan.Edits
import Mathlib.Data.List.Induction
import Mathlib.Data.List.Perm.Subperm
/-!
# QueryPlan.Proofs.Plan.Arrangement

**Evaluating a plan from the leaves up.** A list of nodes of a plan is ordered if it lists each
node behind its inputs (`Plan.Ordered`), and arranged if also every operator has as many inputs as
it takes (`Plan.Arranged`). The live order of a sound plan is arranged, and while a pass lets
consumers read another node, so is the live order together with the nodes that are about to leave
it.

A walk towards the leaves from an ordered node is shorter than the arena, so a value computed
along inputs on a walk of bounded length (`Plan.fold`) satisfies its own equation
(`Ordered.fold_eq`), and is the only one that does (`Ordered.fold_unique`). That equation is
all that is used of it, so a pass keeps a value if it keeps the equation.
-/

namespace QueryPlan

open List

/-- Handles below a bound that are listed once are no more than the bound. -/
theorem length_le_of_nodup {l : List NodeId} {size : Nat} (h : l.Nodup)
    (hin : ∀ id ∈ l, id.index < size) : l.length ≤ size := by
  have hnodup : (l.map NodeId.index).Nodup := by
    refine h.map ?_
    rintro ⟨a⟩ ⟨b⟩ rfl
    rfl
  have hsub : l.map NodeId.index ⊆ range size := by
    intro i hi
    obtain ⟨id, hid, rfl⟩ := mem_map.mp hi
    exact mem_range.mpr (hin id hid)
  simpa using (hnodup.subperm hsub).length_le

namespace Plan

/-- Lists some nodes of a plan, each behind its inputs. -/
structure Ordered (p : Plan) (l : List NodeId) : Prop where
  nodup : l.Nodup
  /-- The handles are handles of the plan. -/
  inArena : ∀ id ∈ l, id.index < p.arena.size
  before : ∀ id ∈ l, ∀ i ∈ p.inputs id, [i, id] <+ l

/-- Lists some nodes of a plan, each behind its inputs, and with as many of them as it takes. -/
structure Arranged (p : Plan) (l : List NodeId) : Prop extends Ordered p l where
  arity : ∀ id ∈ l, (p.op id).arity.admits (p.inputs id).length = true

/-- A value of a node, computed from the values of its inputs on a walk of bounded length. -/
def foldWithin {α : Type} (p : Plan) (leaf : α) (value : NodeId → List α → α) :
    Nat → NodeId → α
  | 0, _ => leaf
  | fuel + 1, id => value id ((p.inputs id).map (p.foldWithin leaf value fuel))

/-- A value of a node, computed from the values of its inputs. -/
def fold {α : Type} (p : Plan) (leaf : α) (value : NodeId → List α → α) (id : NodeId) : α :=
  p.foldWithin leaf value p.walkBound id

/-- Plans that differ in nothing but expressions, positions and what is live. -/
structure SameShape (p q : Plan) : Prop where
  size_eq : q.arena.size = p.arena.size
  inputs_eq : ∀ id, q.inputs id = p.inputs id
  layout_eq : ∀ id, (q.op id).layout = (p.op id).layout
  arity_eq : ∀ id, (q.op id).arity = (p.op id).arity

namespace SameShape

variable {p q r : Plan} {id : NodeId}

theorem refl (p : Plan) : SameShape p p := ⟨rfl, fun _ => rfl, fun _ => rfl, fun _ => rfl⟩

theorem trans (hpq : SameShape p q) (hqr : SameShape q r) : SameShape p r where
  size_eq := hqr.size_eq.trans hpq.size_eq
  inputs_eq id := (hqr.inputs_eq id).trans (hpq.inputs_eq id)
  layout_eq id := (hqr.layout_eq id).trans (hpq.layout_eq id)
  arity_eq id := (hqr.arity_eq id).trans (hpq.arity_eq id)

theorem of_arena_eq (h : q.arena = p.arena) : SameShape p q := by
  have hnode : q.node = p.node := funext fun id => by rw [node, node, h]
  refine ⟨h ▸ rfl, fun id => ?_, fun id => ?_, fun id => ?_⟩
  · rw [inputs, inputs, hnode]
  · rw [op, op, hnode]
  · rw [op, op, hnode]

theorem setOp {op : Operator} (hid : id.index < p.arena.size)
    (hlayout : op.layout = (p.op id).layout) (harity : op.arity = (p.op id).arity) :
    SameShape p (p.setOp id op) := by
  refine ⟨by simp, fun _ => by simp, fun x => ?_, fun x => ?_⟩ <;> by_cases hx : x = id
  · rw [hx, op_setOp_self _ hid, hlayout]
  · rw [Plan.op, node_setOp_of_ne op hx]
    rfl
  · rw [hx, op_setOp_self _ hid, harity]
  · rw [Plan.op, node_setOp_of_ne op hx]
    rfl

theorem isJoin_eq (h : SameShape p q) (id : NodeId) : (q.op id).isJoin = (p.op id).isJoin := by
  rw [Bool.eq_iff_iff, ← Operator.layout_eq_all_iff, ← Operator.layout_eq_all_iff, h.layout_eq]

/-- A value that comes from layouts is the same in plans of one shape. -/
theorem fold_eq {α : Type} (h : SameShape p q) (leaf : α)
    (value : NodeId → Layout → List α → α) :
    q.fold leaf (fun id => value id (q.op id).layout) =
      p.fold leaf (fun id => value id (p.op id).layout) := by
  have hwithin : ∀ fuel id, q.foldWithin leaf (fun id => value id (q.op id).layout) fuel id =
      p.foldWithin leaf (fun id => value id (p.op id).layout) fuel id := by
    intro fuel
    induction fuel with
    | zero => exact fun _ => rfl
    | succ fuel ih =>
        intro id
        rw [foldWithin, foldWithin, h.inputs_eq, h.layout_eq]
        exact congrArg (value _ _) (map_congr_left fun i _ => ih i)
  funext id
  rw [fold, fold, walkBound, walkBound, h.size_eq, hwithin]

end SameShape

namespace Ordered

variable {p q : Plan} {l pre post : List NodeId} {id : NodeId}

theorem mem_of_input (h : p.Ordered l) (hid : id ∈ l) {i : NodeId} (hi : i ∈ p.inputs id) :
    i ∈ l :=
  mem_left (h.before id hid i hi)

theorem not_mem_inputs_self (h : p.Ordered l) (hid : id ∈ l) : id ∉ p.inputs id :=
  fun hi => ne_of_pair h.nodup (h.before id hid id hi) rfl

/-- The inputs of a node stand before it. -/
theorem inputs_before (h : p.Ordered (pre ++ id :: post)) {i : NodeId} (hi : i ∈ p.inputs id) :
    i ∈ pre :=
  mem_left_of_pair (h.before id (by simp) i hi) h.nodup

/-- What reads a node stands behind it. -/
theorem mem_of_reads (h : p.Ordered (pre ++ id :: post)) {n : NodeId}
    (hn : n ∈ pre ++ id :: post) (hi : id ∈ p.inputs n) : n ∈ post :=
  mem_right_of_pair (h.before n hn id hi) h.nodup

/-- An ordered list up to some place is ordered. -/
theorem left (h : p.Ordered (pre ++ post)) : p.Ordered pre where
  nodup := h.nodup.sublist (sublist_append_left ..)
  inArena id hid := h.inArena id (mem_append_left _ hid)
  before id hid i hi := by
    obtain ⟨s, t, rfl⟩ := append_of_mem hid
    have h : p.Ordered (s ++ id :: (t ++ post)) := by simpa using h
    exact pair_sublist_of_mem (h.inputs_before hi) mem_cons_self

/-- What is ordered in one plan is ordered in another plan with the same inputs. -/
theorem congr (h : p.Ordered l) (hsize : p.arena.size ≤ q.arena.size)
    (hinputs : ∀ id ∈ l, q.inputs id = p.inputs id) : q.Ordered l where
  nodup := h.nodup
  inArena id hid := Nat.lt_of_lt_of_le (h.inArena id hid) hsize
  before id hid i hi := h.before id hid i (hinputs id hid ▸ hi)

/-- Ordered nodes that satisfy a condition are ordered if their inputs satisfy it as well. -/
theorem filter (h : p.Ordered l) {keep : NodeId → Bool}
    (hkeep : ∀ id ∈ l, keep id → ∀ i ∈ p.inputs id, keep i) : p.Ordered (l.filter keep) where
  nodup := h.nodup.filter _
  inArena id hid := h.inArena id (mem_filter.mp hid).1
  before id hid i hi := by
    obtain ⟨hid, hk⟩ := mem_filter.mp hid
    have hsub := (h.before id hid i hi).filter keep
    rwa [filter_cons_of_pos (hkeep id hid hk i hi), filter_cons_of_pos hk, filter_nil] at hsub

/-- The next handle is not among ordered nodes. -/
theorem nextId_not_mem (h : p.Ordered l) : p.nextId ∉ l := fun hmem =>
  Nat.lt_irrefl _ (h.inArena _ hmem)

/-- A new node may stand anywhere behind its inputs. -/
theorem insert (h : p.Ordered (pre ++ post)) {n : Node} (hinputs : ∀ i ∈ n.inputs, i ∈ pre) :
    (p.alloc n).Ordered (pre ++ p.nextId :: post) where
  nodup := nodup_middle.mpr (nodup_cons.mpr ⟨h.nextId_not_mem, h.nodup⟩)
  inArena id hid := by
    rw [size_alloc]
    rcases mem_middle_iff.mp hid with rfl | hid
    · exact Nat.lt_succ_self _
    · exact Nat.lt_succ_of_lt (h.inArena id hid)
  before id hid i hi := by
    rw [inputs, node_alloc] at hi
    rcases mem_middle_iff.mp hid with rfl | hid
    · rw [if_pos rfl] at hi
      exact pair_sublist_of_mem (hinputs i hi) mem_cons_self
    · rw [if_neg (ne_nextId (h.inArena id hid))] at hi
      exact (h.before id hid i hi).trans
        (Sublist.append (Sublist.refl pre) (sublist_cons_self _ post))

/-- An ordered list has no more nodes than the arena. -/
theorem length_le (h : p.Ordered l) : l.length ≤ p.arena.size := length_le_of_nodup h.nodup h.inArena

/-- Induction along ordered nodes: a node may rely on its inputs. -/
theorem induction (h : p.Ordered l) {motive : NodeId → Prop}
    (step : ∀ id ∈ l, (∀ i ∈ p.inputs id, motive i) → motive id) : ∀ id ∈ l, motive id := by
  suffices ∀ pre post, l = pre ++ post → ∀ id ∈ pre, motive id from this l [] (by simp)
  intro pre
  induction pre using reverseRecOn with
  | nil => simp
  | append_singleton pre a ih =>
      intro post hl id hid
      have hpre := ih (a :: post) (by simp [hl])
      rcases mem_append.mp hid with hid | hid
      · exact hpre id hid
      · obtain rfl := mem_singleton.mp hid
        subst hl
        refine step id (by simp) fun i hi => hpre i ?_
        have h : p.Ordered (pre ++ id :: post) := by simpa using h
        exact h.inputs_before hi

/-- Induction along ordered nodes for what walks of bounded length find: from as many nodes on
as the arena has, the length is no bound. -/
theorem fuel_induction (h : p.Ordered l) {motive : Nat → NodeId → Prop}
    (step : ∀ id ∈ l, ∀ fuel, (∀ i ∈ p.inputs id, motive fuel i) → motive (fuel + 1) id) :
    ∀ id ∈ l, ∀ fuel, p.arena.size ≤ fuel → motive fuel id := by
  suffices ∀ pre post, l = pre ++ post →
      ∀ id ∈ pre, ∀ fuel, pre.length ≤ fuel → motive fuel id from
    fun id hid fuel hfuel => this l [] (by simp) id hid fuel (Nat.le_trans h.length_le hfuel)
  intro pre
  induction pre using reverseRecOn with
  | nil => simp
  | append_singleton pre a ih =>
      intro post hl id hid fuel hfuel
      rw [length_append, length_singleton] at hfuel
      have hpre := ih (a :: post) (by simp [hl])
      rcases mem_append.mp hid with hid | hid
      · exact hpre id hid fuel (by omega)
      · obtain rfl := mem_singleton.mp hid
        obtain ⟨fuel, rfl⟩ : ∃ k, fuel = k + 1 := ⟨fuel - 1, by omega⟩
        subst hl
        refine step id (by simp) fuel fun i hi => hpre i ?_ fuel (by omega)
        have h : p.Ordered (pre ++ id :: post) := by simpa using h
        exact h.inputs_before hi

/-! ### Values of ordered nodes -/

section Fold

variable {α : Type} {leaf : α} {value : NodeId → List α → α}

theorem foldWithin_succ (h : p.Ordered l) (hid : id ∈ l) {fuel : Nat}
    (hfuel : p.arena.size ≤ fuel) :
    p.foldWithin leaf value (fuel + 1) id = p.foldWithin leaf value fuel id := by
  refine h.fuel_induction
    (motive := fun fuel id => p.foldWithin leaf value (fuel + 1) id =
      p.foldWithin leaf value fuel id) ?_ id hid fuel hfuel
  intro id _ fuel ih
  rw [foldWithin, foldWithin]
  exact congrArg (value id) (map_congr_left ih)

/-- The value of an ordered node comes from the values of its inputs. -/
theorem fold_eq (h : p.Ordered l) (hid : id ∈ l) :
    p.fold leaf value id = value id ((p.inputs id).map (p.fold leaf value)) := by
  rw [fold, walkBound, foldWithin]
  refine congrArg (value id) (map_congr_left fun i hi => ?_)
  rw [fold, walkBound, h.foldWithin_succ (h.mem_of_input hid hi) (Nat.le_refl _)]

/-- Only one value comes from the values of the inputs. -/
theorem fold_unique (h : p.Ordered l) {g : NodeId → α}
    (hg : ∀ id ∈ l, g id = value id ((p.inputs id).map g)) :
    ∀ id ∈ l, p.fold leaf value id = g id := by
  refine h.induction fun id hid ih => ?_
  rw [h.fold_eq hid, hg id hid, map_congr_left ih]

/-- A value that comes from layouts is the same in plans that agree on layouts and inputs. -/
theorem fold_congr (leaf : α) (value : NodeId → Layout → List α → α) (h : p.Ordered l)
    (hsize : p.arena.size ≤ q.arena.size)
    (hlayout : ∀ id ∈ l, (q.op id).layout = (p.op id).layout)
    (hinputs : ∀ id ∈ l, q.inputs id = p.inputs id) :
    ∀ id ∈ l, q.fold leaf (fun id => value id (q.op id).layout) id =
      p.fold leaf (fun id => value id (p.op id).layout) id := by
  refine (h.congr hsize hinputs).fold_unique fun id hid => ?_
  rw [hlayout id hid, hinputs id hid]
  exact h.fold_eq hid

/-- Plans may agree on a part only, as long as what a node passes on belongs to the part. -/
theorem fold_congr_on (leaf : α) (value : Layout → List α → α) {part : NodeId → Prop}
    (h : p.Ordered l) (hq : q.Ordered l) (hown : ∀ width names as bs,
      value (.own width names) as = value (.own width names) bs)
    (hlayout : ∀ id ∈ l, part id → (q.op id).layout = (p.op id).layout)
    (hinputs : ∀ id ∈ l, part id → (∀ width names, (p.op id).layout ≠ .own width names) →
      q.inputs id = p.inputs id ∧ ∀ i ∈ p.inputs id, part i) :
    ∀ id ∈ l, part id → q.fold leaf (fun id => value (q.op id).layout) id =
      p.fold leaf (fun id => value (p.op id).layout) id := by
  refine h.induction fun id hid ih hpart => ?_
  rw [hq.fold_eq hid, h.fold_eq hid, hlayout id hid hpart]
  cases hop : (p.op id).layout with
  | own width names => exact hown width names _ _
  | first | all =>
      obtain ⟨hsame, hall⟩ := hinputs id hid hpart (by simp [hop])
      rw [hsame]
      exact congrArg _ (map_congr_left fun i hi => ih i hi (hall i hi))

end Fold

/-! ### The live order -/

/-- What something reads is not the root. -/
theorem root?_ne_of_mem_inputs (h : p.Ordered p.order) {x : NodeId} (hx : x ∈ p.order)
    (hid : id ∈ p.inputs x) : p.root? ≠ some id := by
  intro hroot
  obtain ⟨front, horder⟩ := getLast?_eq_some_iff.mp hroot
  rw [horder] at h hx
  exact not_mem_nil (h.mem_of_reads hx hid)

/-- An edit of operators keeps every node behind its inputs. -/
theorem of_sameShape (h : p.Ordered p.order) (hshape : SameShape p q)
    (horder : q.order = p.order) : q.Ordered q.order := by
  rw [horder]
  exact h.congr (Nat.le_of_eq hshape.size_eq.symm) fun x _ => hshape.inputs_eq x

/-- Another operator changes no inputs. -/
theorem setOp (h : p.Ordered p.order) (id : NodeId) (op : Operator) :
    (p.setOp id op).Ordered (p.setOp id op).order :=
  h.congr (by simp) fun x _ => inputs_setOp op

/-- A node that nothing else reads may leave. -/
theorem remove (h : p.Ordered p.order) (hunread : ∀ n ∈ p.order, n ≠ id → id ∉ p.inputs n) :
    (p.remove id).Ordered (p.remove id).order := by
  refine (h.filter fun n hn hne i hi => ?_).congr (Nat.le_refl _) fun _ _ => rfl
  rw [bne_iff_ne] at hne ⊢
  rintro rfl
  exact hunread n hn hne hi

/-- A node does not read what reads it. -/
theorem not_reads_of_input (h : p.Ordered p.order) (hid : id ∈ p.order) {input : NodeId}
    (hinput : input ∈ p.inputs id) : id ∉ p.inputs input := fun hread =>
  not_pair_swap h.nodup (h.before id hid input hinput)
    (h.before input (h.mem_of_input hid hinput) id hread)

/-- A new node may be live behind its inputs. -/
theorem insert_live (h : p.Ordered p.order) (horder : p.order = pre ++ post) {n : Node}
    (hinputs : ∀ i ∈ n.inputs, i ∈ pre) :
    ({ p.alloc n with order := pre ++ p.nextId :: post } : Plan).Ordered
      (pre ++ p.nextId :: post) :=
  ((horder ▸ h).insert hinputs).congr (Nat.le_refl _) fun _ _ => rfl

end Ordered

namespace Arranged

variable {p q : Plan} {l pre post : List NodeId} {id : NodeId}

/-- An arrangement up to some place is one. -/
theorem left (h : p.Arranged (pre ++ post)) : p.Arranged pre where
  toOrdered := h.toOrdered.left
  arity id hid := h.arity id (mem_append_left _ hid)

/-- A join reads two nodes. -/
theorem sides_of_join (h : p.Arranged l) (hid : id ∈ l) {j : Join} (hop : p.op id = .join j) :
    ∃ left right, p.inputs id = [left, right] := by
  have harity := h.arity id hid
  rw [hop] at harity
  simpa [Operator.arity, Arity.admits, length_eq_two] using harity

/-- An arrangement of one plan is one of another plan with the same arities and inputs. -/
theorem congr (h : p.Arranged l) (hsize : p.arena.size ≤ q.arena.size)
    (harity : ∀ id ∈ l, (q.op id).arity = (p.op id).arity)
    (hinputs : ∀ id ∈ l, q.inputs id = p.inputs id) : q.Arranged l where
  toOrdered := h.toOrdered.congr hsize hinputs
  arity id hid := by
    rw [harity id hid, hinputs id hid]
    exact h.arity id hid

theorem of_sameShape (h : p.Arranged l) (hq : SameShape p q) : q.Arranged l :=
  h.congr (Nat.le_of_eq hq.size_eq.symm) (fun id _ => hq.arity_eq id) fun id _ => hq.inputs_eq id

/-- The nodes of an arrangement that satisfy a condition are arranged if their inputs satisfy it
as well. -/
theorem filter (h : p.Arranged l) {keep : NodeId → Bool}
    (hkeep : ∀ id ∈ l, keep id → ∀ i ∈ p.inputs id, keep i) : p.Arranged (l.filter keep) where
  toOrdered := h.toOrdered.filter hkeep
  arity id hid := h.arity id (mem_filter.mp hid).1

/-- A new node with as many inputs as it takes may stand anywhere behind them. -/
theorem insert (h : p.Arranged (pre ++ post)) {n : Node}
    (harity : n.op.arity.admits n.inputs.length = true) (hinputs : ∀ i ∈ n.inputs, i ∈ pre) :
    (p.alloc n).Arranged (pre ++ p.nextId :: post) where
  toOrdered := h.toOrdered.insert hinputs
  arity id hid := by
    rw [op, inputs, node_alloc]
    rcases mem_middle_iff.mp hid with rfl | hid
    · rwa [if_pos rfl]
    · rw [if_neg (ne_nextId (h.inArena id hid))]
      exact h.arity id hid

end Arranged

end Plan

end QueryPlan
