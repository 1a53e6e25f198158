import QueryPlan.Proofs.Plan.Cycles
/-!
# QueryPlan.Proofs.Plan.Paths

**Paths along inputs.** A path gives the place of an input at each step. So there are two paths to a
node that another one reads at two places, and as many to a shared node as there are ways to it.

Paths correspond to walks (`exists_path_iff`). Hence from a node that reaches no cycle no path has
more steps than the arena has nodes (`length_le_of_follow?`), and from a node that reaches one there
are paths of every length (`exists_path_of_reachesCycle`). An ordered list reaches no cycle.

`pathsWithin` lists the paths up to a length in lexicographic order: a path stands before the longer
ones that it begins, and the paths over an input before those over later inputs.
-/

namespace QueryPlan

open List

namespace Plan

/-- A node reads another one. -/
def HasInput (p : Plan) (a b : NodeId) : Prop := b ∈ p.inputs a

/-- The node at the end of a path. -/
def follow? (p : Plan) (id : NodeId) : List Nat → Option NodeId
  | [] => some id
  | place :: path => (p.inputs id)[place]?.bind fun i => p.follow? i path

/-- The paths up to a length, each with the node at its end. -/
def pathsWithin (p : Plan) : Nat → NodeId → List (List Nat × NodeId)
  | 0, id => [([], id)]
  | steps + 1, id => ([], id) :: (p.inputs id).zipIdx.flatMap fun (i, place) =>
      (p.pathsWithin steps i).map fun (path, x) => (place :: path, x)

variable {p : Plan} {id x : NodeId} {path : List Nat} {steps : Nat}

@[simp] theorem follow?_nil : p.follow? id [] = some id := rfl

theorem follow?_cons_eq_some {place : Nat} : p.follow? id (place :: path) = some x ↔
    ∃ i, (p.inputs id)[place]? = some i ∧ p.follow? i path = some x :=
  Option.bind_eq_some_iff

/-! ### Paths and walks -/

/-- A node that reads another one is in the arena. -/
theorem HasInput.lt_size {a b : NodeId} (h : p.HasInput a b) : a.index < p.arena.size := by
  by_contra hout
  unfold HasInput inputs at h
  rw [node_of_size_le (Nat.le_of_not_lt hout)] at h
  exact absurd h not_mem_nil

/-- There are paths of a length exactly if there are walks with as many steps. -/
theorem exists_path_iff : (∃ path x, path.length = steps ∧ p.follow? id path = some x) ↔
    ∃ l, l.length = steps ∧ IsChain p.HasInput (id :: l) := by
  induction steps generalizing id with
  | zero => exact ⟨fun _ => ⟨[], rfl, isChain_singleton id⟩, fun _ => ⟨[], id, rfl, rfl⟩⟩
  | succ steps ih =>
      constructor
      · rintro ⟨path, x, hlength, hpath⟩
        obtain ⟨place, path, rfl⟩ := exists_cons_of_length_eq_add_one hlength
        obtain ⟨i, hi, hpath⟩ := follow?_cons_eq_some.mp hpath
        obtain ⟨l, hl, hwalk⟩ := ih.mp ⟨path, x, Nat.succ.inj hlength, hpath⟩
        exact ⟨i :: l, congrArg (· + 1) hl,
          isChain_cons_cons.mpr ⟨mem_of_getElem? hi, hwalk⟩⟩
      · rintro ⟨l, hlength, hwalk⟩
        obtain ⟨i, l, rfl⟩ := exists_cons_of_length_eq_add_one hlength
        obtain ⟨hinput, hwalk⟩ := isChain_cons_cons.mp hwalk
        obtain ⟨place, hi⟩ := mem_iff_getElem?.mp hinput
        obtain ⟨path, x, hpath, hend⟩ := ih.mpr ⟨l, Nat.succ.inj hlength, hwalk⟩
        exact ⟨place :: path, x, congrArg (· + 1) hpath, follow?_cons_eq_some.mpr ⟨i, hi, hend⟩⟩

/-- From a node that reaches a cycle there are paths of every length. -/
theorem exists_path_of_reachesCycle (h : ReachesCycle p.HasInput id) (steps : Nat) :
    ∃ path x, path.length = steps ∧ p.follow? id path = some x :=
  exists_path_iff.mpr (h.exists_walk steps)

/-- From a node that reaches no cycle no path has more steps than the arena has nodes. -/
theorem length_le_of_follow? (hno : ¬ReachesCycle p.HasInput id)
    (hpath : p.follow? id path = some x) : path.length ≤ p.arena.size := by
  by_contra hlong
  obtain ⟨l, hlength, hwalk⟩ := exists_path_iff.mp ⟨path, x, rfl, hpath⟩
  obtain ⟨b, l, rfl⟩ := exists_cons_of_length_pos (l := l) (by omega)
  obtain ⟨hinput, -⟩ := isChain_cons_cons.mp hwalk
  have hcycle : ReachesCycle p.HasInput b :=
    reachesCycle_of_walk (fun _ _ => HasInput.lt_size) hwalk (by rw [length_cons] at hlength; omega)
  exact hno (hcycle.head hinput)

/-- What a listed node reads over others stands before it in an ordered list. -/
theorem Ordered.pair_of_transGen {l : List NodeId} {a b : NodeId} (h : p.Ordered l) (ha : a ∈ l)
    (hab : Relation.TransGen p.HasInput a b) : [b, a] <+ l := by
  induction hab with
  | single hinput => exact h.before _ ha _ hinput
  | tail _ hinput ih => exact pair_sublist_trans h.nodup (h.before _ (mem_left ih) _ hinput) ih

/-- The nodes of an ordered list reach no cycle. -/
theorem Ordered.not_reachesCycle {l : List NodeId} (h : p.Ordered l) (hid : id ∈ l) :
    ¬ReachesCycle p.HasInput id := by
  rintro ⟨c, hreaches, hcycle⟩
  have hc : c ∈ l := by
    clear hcycle
    induction hreaches with
    | refl => exact hid
    | tail _ hinput ih => exact h.mem_of_input ih hinput
  exact ne_of_pair h.nodup (h.pair_of_transGen hc hcycle) rfl

/-! ### The list of paths -/

theorem mem_pathsWithin : (path, x) ∈ p.pathsWithin steps id ↔
    path.length ≤ steps ∧ p.follow? id path = some x := by
  induction steps generalizing id path x with
  | zero => cases path <;> simp [pathsWithin, eq_comm]
  | succ steps ih =>
      cases path with
      | nil => simp [pathsWithin, eq_comm]
      | cons place path =>
          simp only [pathsWithin, mem_cons, mem_flatMap, mem_map, Prod.exists, Prod.mk.injEq, ih,
            mem_zipIdx_iff_getElem?, follow?_cons_eq_some, length_cons]
          constructor
          · rintro (⟨⟨⟩, -⟩ | ⟨i, place, hi, path, x, ⟨hlength, hpath⟩, ⟨⟩, rfl⟩)
            exact ⟨Nat.succ_le_succ hlength, i, hi, hpath⟩
          · rintro ⟨hlength, i, hi, hpath⟩
            exact .inr ⟨i, place, hi, path, x, ⟨Nat.le_of_succ_le_succ hlength, hpath⟩, rfl, rfl⟩

/-- The paths are listed in lexicographic order. -/
theorem pairwise_pathsWithin :
    (p.pathsWithin steps id).Pairwise fun a b => a.1 < b.1 := by
  induction steps generalizing id with
  | zero => exact pairwise_singleton _ _
  | succ steps ih =>
      have hplaces : (p.inputs id).zipIdx.Pairwise fun a b => a.2 < b.2 := by
        have hrange := pairwise_lt_range' (s := 0) (n := (p.inputs id).length)
        rwa [← zipIdx_map_snd, pairwise_map] at hrange
      rw [pathsWithin, pairwise_cons, pairwise_flatMap]
      refine ⟨fun b hb => ?_, fun a _ => ?_, hplaces.imp fun {a b} hab c hc d hd => ?_⟩
      · obtain ⟨a, -, hb⟩ := mem_flatMap.mp hb
        obtain ⟨c, -, rfl⟩ := mem_map.mp hb
        exact nil_lt_cons _ _
      · exact pairwise_map.mpr (ih.imp fun h => cons_lt_cons_iff.mpr (.inr ⟨rfl, h⟩))
      · obtain ⟨c, -, rfl⟩ := mem_map.mp hc
        obtain ⟨d, -, rfl⟩ := mem_map.mp hd
        exact cons_lt_cons_iff.mpr (.inl hab)

end Plan

end QueryPlan
