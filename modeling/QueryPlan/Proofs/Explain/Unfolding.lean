import QueryPlan.Explain.Tree
import QueryPlan.Proofs.Explain.Entries
import QueryPlan.Proofs.Plan.Paths
/-!
# QueryPlan.Proofs.Explain.Unfolding

**An explained plan is the complete unfolding.** The nodes of a tree are named by the places of
children on the way to them (`ExplainTree.at?`), and a tree unfolds a plan if these are the paths of
the plan, each with the entry of the node at its end (`Plan.IsUnfolding`).

A tree that is cut below some levels has a node for each path that is not longer
(`at?_of_treeWithin`), and it exists exactly if each of these can be shown
(`exists_treeWithin_iff`). From a root that reaches no cycle no path is longer than the arena, so the
cut meets nothing. A root that reaches a cycle has no unfolding at all (`isUnfolding_iff`), and its
tree ends where the walk along its inputs gives up (`Plan.Explains`). `unfolding_exact` puts this
together and says the same of the text, line by line.
-/

namespace QueryPlan

open List

namespace ExplainTree

/-- The entry at the root of a tree. -/
def entry : ExplainTree → Entry
  | .node entry _ => entry

/-- The trees below the root of a tree. -/
def children : ExplainTree → List ExplainTree
  | .node _ children => children

/-- The tree under the node that is reached over children at some places. -/
def at? : ExplainTree → List Nat → Option ExplainTree
  | t, [] => some t
  | .node _ children, place :: path => children[place]?.bind fun c => c.at? path

variable {e : Entry} {cs : List ExplainTree} {s t : ExplainTree} {path : List Nat} {place : Nat}

/-- Induction over trees, with the hypothesis for every child. -/
@[elab_as_elim]
theorem ind {motive : ExplainTree → Prop}
    (node : ∀ e cs, (∀ c ∈ cs, motive c) → motive (.node e cs)) (t : ExplainTree) : motive t :=
  @ExplainTree.rec motive (fun cs => ∀ c ∈ cs, motive c) (fun e cs ih => node e cs ih)
    (fun _ h => absurd h not_mem_nil)
    (fun _ _ hc hcs _ h => (mem_cons.mp h).elim (fun h => h ▸ hc) (hcs _)) t

@[simp] theorem at?_nil : t.at? [] = some t := by rw [at?]

theorem at?_cons_eq_some : (ExplainTree.node e cs).at? (place :: path) = some s ↔
    ∃ c, cs[place]? = some c ∧ c.at? path = some s := by
  rw [at?, Option.bind_eq_some_iff]

theorem linesAll_eq (depth : Nat) (ts : List ExplainTree) :
    linesAll depth ts = ts.flatMap (lines depth) := by
  induction ts with
  | nil => rfl
  | cons t ts ih => rw [linesAll, ih, flatMap_cons]

end ExplainTree

namespace Plan

/-- A tree has one node for each path from a node along inputs. It shows there the entry of the node
at the end of the path, over children that stand for the inputs of that node, in their order. -/
structure IsUnfolding (p : Plan) (verbose : Bool) (id : NodeId) (t : ExplainTree) : Prop where
  places : ∀ path, (∃ s, t.at? path = some s) ↔ ∃ x, p.follow? id path = some x
  entry : ∀ path s x, t.at? path = some s → p.follow? id path = some x →
    (p.node x).entry verbose = .ok s.entry
  children : ∀ path s x, t.at? path = some s → p.follow? id path = some x →
    Forall₂ (fun i c => (p.node i).entry verbose = .ok c.entry) (p.inputs x) s.children

/-- The walk along inputs from a node that is met at some depth ends with a tree. It goes on to the
inputs as long as the depth is no more than the number of nodes of the arena. -/
inductive Explains (p : Plan) (verbose : Bool) : Nat → NodeId → ExplainTree → Prop
  | cut {depth : Nat} {id : NodeId} {e : Entry} : p.arena.size < depth →
    (p.node id).entry verbose = .ok e → Explains p verbose depth id (.node e [])
  | descend {depth : Nat} {id : NodeId} {e : Entry} {cs : List ExplainTree} :
    depth ≤ p.arena.size → (p.node id).entry verbose = .ok e →
    cs.length = (p.inputs id).length →
    (∀ (place : Nat) (i : NodeId) (c : ExplainTree), (p.inputs id)[place]? = some i →
      cs[place]? = some c → Explains p verbose (depth + 1) i c) →
    Explains p verbose depth id (.node e cs)

/-- The line of an entry at the end of a path. -/
def pathLine (path : List Nat) (e : Entry) : String :=
  "".pushn ' ' (2 * path.length) ++ e.text

variable {p : Plan} {verbose : Bool} {id x : NodeId} {path : List Nat} {levels depth : Nat}
  {e : Entry} {cs : List ExplainTree} {s t u : ExplainTree}

/-! ### Unfoldings -/

namespace IsUnfolding

/-- The root of an unfolding has a child for each input. -/
theorem length_eq (h : p.IsUnfolding verbose id (.node e cs)) :
    cs.length = (p.inputs id).length :=
  (h.children [] _ id ExplainTree.at?_nil follow?_nil).length_eq.symm

/-- Below the root of an unfolding stand unfoldings of the inputs. -/
theorem child (h : p.IsUnfolding verbose id (.node e cs)) {place : Nat} {i : NodeId}
    {c : ExplainTree} (hi : (p.inputs id)[place]? = some i) (hc : cs[place]? = some c) :
    p.IsUnfolding verbose i c := by
  have hat : ∀ path s, c.at? path = some s ↔
      (ExplainTree.node e cs).at? (place :: path) = some s := fun path s => by
    rw [ExplainTree.at?_cons_eq_some, hc]
    simp
  have hfollow : ∀ path x, p.follow? i path = some x ↔
      p.follow? id (place :: path) = some x := fun path x => by
    rw [follow?_cons_eq_some, hi]
    simp
  constructor
  · intro path
    simp only [hat, hfollow]
    exact h.places (place :: path)
  · exact fun path s x hs hx => h.entry _ s x ((hat path s).mp hs) ((hfollow path x).mp hx)
  · exact fun path s x hs hx => h.children _ s x ((hat path s).mp hs) ((hfollow path x).mp hx)

/-- There is only one unfolding. -/
theorem unique (ht : p.IsUnfolding verbose id t) (hu : p.IsUnfolding verbose id u) : t = u := by
  induction t using ExplainTree.ind generalizing id u with
  | node e cs ih =>
      obtain ⟨e', ds⟩ := u
      have hentry : e = e' := Except.ok.inj ((ht.entry [] _ id ExplainTree.at?_nil follow?_nil).symm.trans
        (hu.entry [] _ id ExplainTree.at?_nil follow?_nil))
      have hlength : cs.length = ds.length := ht.length_eq.trans hu.length_eq.symm
      have hchildren : cs = ds := ext_getElem hlength fun place hc hd => by
        have hi := getElem?_eq_getElem (ht.length_eq ▸ hc)
        exact ih _ (getElem_mem hc) (ht.child hi (getElem?_eq_getElem hc))
          (hu.child hi (getElem?_eq_getElem hd))
      rw [hentry, hchildren]

/-- A node that reaches a cycle has no unfolding, since trees have no endless paths. -/
theorem not_reachesCycle (h : p.IsUnfolding verbose id t) : ¬ReachesCycle p.HasInput id := by
  induction t using ExplainTree.ind generalizing id with
  | node e cs ih =>
      intro hcycle
      obtain ⟨i, hinput, hcycle⟩ := hcycle.exists_step
      obtain ⟨place, hlt, rfl⟩ := mem_iff_getElem.mp hinput
      have hc : place < cs.length := h.length_eq ▸ hlt
      exact ih _ (getElem_mem hc)
        (h.child (getElem?_eq_getElem hlt) (getElem?_eq_getElem hc)) hcycle

end IsUnfolding

/-! ### Trees that are cut below some levels -/

theorem treeWithin_zero_eq_ok : p.treeWithin verbose 0 id = .ok t ↔
    ∃ e, (p.node id).entry verbose = .ok e ∧ .node e [] = t := by
  simp only [treeWithin, Result.bind_eq_ok, Result.pure_eq_ok]

theorem treeWithin_succ_eq_ok : p.treeWithin verbose (levels + 1) id = .ok t ↔
    ∃ e, (p.node id).entry verbose = .ok e ∧ ∃ cs,
      (p.inputs id).mapM (p.treeWithin verbose levels) = .ok cs ∧ .node e cs = t := by
  simp only [treeWithin, Result.bind_eq_ok, Result.pure_eq_ok]

/-- The root of a tree shows the node. -/
theorem entry_of_treeWithin (h : p.treeWithin verbose levels id = .ok t) :
    (p.node id).entry verbose = .ok t.entry := by
  cases levels with
  | zero =>
      obtain ⟨e, he, rfl⟩ := treeWithin_zero_eq_ok.mp h
      exact he
  | succ levels =>
      obtain ⟨e, he, cs, -, rfl⟩ := treeWithin_succ_eq_ok.mp h
      exact he

/-- With a tree of a node there is, for each path that is not longer than its levels, the tree of the
node at the end of the path, with the levels that are left. -/
theorem exists_treeWithin_of_follow? (h : p.treeWithin verbose levels id = .ok t)
    (hlength : path.length ≤ levels) (hx : p.follow? id path = some x) :
    ∃ s, p.treeWithin verbose (levels - path.length) x = .ok s := by
  induction path generalizing levels id t with
  | nil =>
      obtain rfl := Option.some.inj hx
      exact ⟨t, h⟩
  | cons place path ih =>
      obtain ⟨i, hi, hx⟩ := follow?_cons_eq_some.mp hx
      cases levels with
      | zero => exact absurd hlength (Nat.not_succ_le_zero _)
      | succ levels =>
          obtain ⟨e, -, cs, hcs, -⟩ := treeWithin_succ_eq_ok.mp h
          obtain ⟨c, -, htree⟩ := Result.mapM_mem_left hcs (mem_of_getElem? hi)
          rw [length_cons, Nat.add_sub_add_right]
          exact ih htree (Nat.le_of_succ_le_succ hlength) hx

/-- The nodes of a tree are these trees. -/
theorem at?_of_treeWithin (h : p.treeWithin verbose levels id = .ok t) : t.at? path = some s ↔
    path.length ≤ levels ∧ ∃ x, p.follow? id path = some x ∧
      p.treeWithin verbose (levels - path.length) x = .ok s := by
  induction path generalizing levels id t with
  | nil => simp [h, eq_comm]
  | cons place path ih =>
      cases levels with
      | zero =>
          obtain ⟨e, -, rfl⟩ := treeWithin_zero_eq_ok.mp h
          simp [ExplainTree.at?_cons_eq_some]
      | succ levels =>
          obtain ⟨e, -, cs, hcs, rfl⟩ := treeWithin_succ_eq_ok.mp h
          simp only [ExplainTree.at?_cons_eq_some, follow?_cons_eq_some, length_cons,
            Nat.add_sub_add_right, Nat.add_le_add_iff_right, Result.getElem?_of_mapM hcs]
          constructor
          · rintro ⟨c, ⟨i, hi, htree⟩, hs⟩
            obtain ⟨hlength, x, hx, hs⟩ := (ih htree).mp hs
            exact ⟨hlength, x, ⟨i, hi, hx⟩, hs⟩
          · rintro ⟨hlength, x, ⟨i, hi, hx⟩, hs⟩
            obtain ⟨c, -, htree⟩ := Result.mapM_mem_left hcs (mem_of_getElem? hi)
            exact ⟨c, ⟨i, hi, htree⟩, (ih htree).mpr ⟨hlength, x, hx, hs⟩⟩

/-- There is a tree exactly if every node at the end of a path which is not longer than the levels
can be shown. -/
theorem exists_treeWithin_iff : (∃ t, p.treeWithin verbose levels id = .ok t) ↔
    ∀ path x, path.length ≤ levels → p.follow? id path = some x →
      ∃ e, (p.node x).entry verbose = .ok e := by
  constructor
  · rintro ⟨t, ht⟩ path x hlength hx
    obtain ⟨s, hs⟩ := exists_treeWithin_of_follow? ht hlength hx
    exact ⟨_, entry_of_treeWithin hs⟩
  · intro h
    induction levels generalizing id with
    | zero =>
        obtain ⟨e, he⟩ := h [] id le_rfl follow?_nil
        exact ⟨_, treeWithin_zero_eq_ok.mpr ⟨e, he, rfl⟩⟩
    | succ levels ih =>
        obtain ⟨e, he⟩ := h [] id (Nat.zero_le _) follow?_nil
        obtain ⟨cs, hcs⟩ : ∃ cs, (p.inputs id).mapM (p.treeWithin verbose levels) = .ok cs :=
          Result.exists_mapM fun i hi => ih fun path x hlength hx => by
            obtain ⟨place, hi⟩ := mem_iff_getElem?.mp hi
            exact h (place :: path) x (Nat.succ_le_succ hlength)
              (follow?_cons_eq_some.mpr ⟨i, hi, hx⟩)
        exact ⟨_, treeWithin_succ_eq_ok.mpr ⟨e, he, cs, hcs, rfl⟩⟩

theorem treeWithin_failsOnly (p : Plan) (verbose : Bool) (levels : Nat) (id : NodeId) :
    Result.FailsOnly .overflow (p.treeWithin verbose levels id) := by
  induction levels generalizing id with
  | zero => exact .bind (Node.entry_failsOnly _ _) fun _ => .pure
  | succ levels ih =>
      exact .bind (Node.entry_failsOnly _ _) fun _ => .bind (.mapM fun i _ => ih i) fun _ => .pure

/-- A tree with more levels than any path has steps is the unfolding. -/
theorem isUnfolding_of_treeWithin (h : p.treeWithin verbose levels id = .ok t)
    (hshort : ∀ path x, p.follow? id path = some x → path.length < levels) :
    p.IsUnfolding verbose id t where
  places path := by
    constructor
    · rintro ⟨s, hs⟩
      obtain ⟨-, x, hx, -⟩ := (at?_of_treeWithin h).mp hs
      exact ⟨x, hx⟩
    · rintro ⟨x, hx⟩
      have hle := (hshort path x hx).le
      obtain ⟨s, hs⟩ := exists_treeWithin_of_follow? h hle hx
      exact ⟨s, (at?_of_treeWithin h).mpr ⟨hle, x, hx, hs⟩⟩
  entry path s x hs hx := by
    obtain ⟨-, y, hy, hs⟩ := (at?_of_treeWithin h).mp hs
    obtain rfl := Option.some.inj (hx.symm.trans hy)
    exact entry_of_treeWithin hs
  children path s x hs hx := by
    obtain ⟨-, y, hy, hs⟩ := (at?_of_treeWithin h).mp hs
    obtain rfl := Option.some.inj (hx.symm.trans hy)
    -- There is a level left for the children, also at the end of the longest path.
    obtain ⟨left, hleft⟩ : ∃ n, levels - path.length = n + 1 :=
      Nat.exists_eq_succ_of_ne_zero (Nat.sub_ne_zero_of_lt (hshort path x hx))
    rw [hleft] at hs
    obtain ⟨e, -, cs, hcs, rfl⟩ := treeWithin_succ_eq_ok.mp hs
    exact (Result.mapM_eq_ok.mp hcs).imp fun _ _ => entry_of_treeWithin

/-- A tree is the unfolding of a node exactly if the node reaches no cycle and this is its tree. -/
theorem isUnfolding_iff : p.IsUnfolding verbose id u ↔
    ¬ReachesCycle p.HasInput id ∧ p.treeWithin verbose (p.arena.size + 1) id = .ok u := by
  have hshort : ¬ReachesCycle p.HasInput id → ∀ path x, p.follow? id path = some x →
      path.length < p.arena.size + 1 := fun hno _ _ hpath =>
    Nat.lt_succ_of_le (length_le_of_follow? hno hpath)
  constructor
  · intro hu
    have hno := hu.not_reachesCycle
    obtain ⟨t, ht⟩ : ∃ t, p.treeWithin verbose (p.arena.size + 1) id = .ok t :=
      exists_treeWithin_iff.mpr fun path x _ hx =>
        let ⟨s, hs⟩ := (hu.places path).mpr ⟨x, hx⟩
        ⟨_, hu.entry path s x hs hx⟩
    exact ⟨hno, hu.unique (isUnfolding_of_treeWithin ht (hshort hno)) ▸ ht⟩
  · rintro ⟨hno, hu⟩
    exact isUnfolding_of_treeWithin hu (hshort hno)

/-- The tree comes down to its last level exactly if the root reaches a cycle. -/
theorem exists_at?_deepest_iff (h : p.treeWithin verbose (p.arena.size + 1) id = .ok t) :
    (∃ path s, path.length = p.arena.size + 1 ∧ t.at? path = some s) ↔
      ReachesCycle p.HasInput id := by
  constructor
  · rintro ⟨path, s, hlength, hs⟩
    obtain ⟨-, x, hx, -⟩ := (at?_of_treeWithin h).mp hs
    by_contra hno
    have hle := length_le_of_follow? hno hx
    omega
  · intro hcycle
    obtain ⟨path, x, hlength, hx⟩ := exists_path_of_reachesCycle hcycle (p.arena.size + 1)
    obtain ⟨s, hs⟩ := exists_treeWithin_of_follow? h hlength.le hx
    exact ⟨path, s, hlength, (at?_of_treeWithin h).mpr ⟨hlength.le, x, hx, hs⟩⟩

/-! ### The walk that gives up -/

/-- The walk ends with one tree, that of the levels which are left. -/
theorem explains_iff : p.Explains verbose depth id t ↔
    p.treeWithin verbose (p.arena.size + 1 - depth) id = .ok t := by
  constructor
  · intro h
    induction h with
    | cut hdepth he =>
        rw [Nat.sub_eq_zero_of_le hdepth]
        exact treeWithin_zero_eq_ok.mpr ⟨_, he, rfl⟩
    | @descend depth id e cs hdepth he hlength _ ih =>
        have hlevels : p.arena.size + 1 - depth = p.arena.size + 1 - (depth + 1) + 1 := by omega
        have hcs : (p.inputs id).mapM
            (p.treeWithin verbose (p.arena.size + 1 - (depth + 1))) = .ok cs :=
          Result.mapM_eq_ok.mpr (forall₂_iff_get.mpr ⟨hlength.symm, fun place hi hc =>
            ih place _ _ (getElem?_eq_getElem hi) (getElem?_eq_getElem hc)⟩)
        rw [hlevels]
        exact treeWithin_succ_eq_ok.mpr ⟨e, he, cs, hcs, rfl⟩
  · intro h
    induction hlevels : p.arena.size + 1 - depth generalizing depth id t with
    | zero =>
        rw [hlevels] at h
        obtain ⟨e, he, rfl⟩ := treeWithin_zero_eq_ok.mp h
        exact .cut (by omega) he
    | succ levels ih =>
        rw [hlevels] at h
        obtain ⟨e, he, cs, hcs, rfl⟩ := treeWithin_succ_eq_ok.mp h
        have hlength : cs.length = (p.inputs id).length :=
          (Result.mapM_eq_ok.mp hcs).length_eq.symm
        refine .descend (by omega) he hlength fun place i c hi hc => ?_
        obtain ⟨j, hj, htree⟩ := (Result.getElem?_of_mapM hcs).mp hc
        obtain rfl := Option.some.inj (hi.symm.trans hj)
        have hleft : p.arena.size + 1 - (depth + 1) = levels := by omega
        exact ih (hleft ▸ htree) hleft

/-! ### The text of a tree -/

/-- The entry of a node, where it can be shown. -/
def shownEntry (p : Plan) (verbose : Bool) (x : NodeId) : Entry :=
  Result.valueOr default ((p.node x).entry verbose)

theorem entry_eq_shownEntry (h : (p.node x).entry verbose = .ok e) :
    p.shownEntry verbose x = e := by
  rw [shownEntry, h]
  rfl

/-- The lines of a tree are those of the paths that are not longer than its levels, in
lexicographic order. -/
theorem lines_of_treeWithin (h : p.treeWithin verbose levels id = .ok t) :
    t.lines depth = (p.pathsWithin levels id).map fun (path, x) =>
      "".pushn ' ' (2 * (depth + path.length)) ++ (p.shownEntry verbose x).text := by
  induction levels generalizing id depth t with
  | zero =>
      obtain ⟨e, he, rfl⟩ := treeWithin_zero_eq_ok.mp h
      simp [ExplainTree.lines, ExplainTree.linesAll, pathsWithin, entry_eq_shownEntry he]
  | succ levels ih =>
      obtain ⟨e, he, cs, hcs, rfl⟩ := treeWithin_succ_eq_ok.mp h
      rw [ExplainTree.lines, ExplainTree.linesAll_eq, pathsWithin, map_cons, map_flatMap,
        ← entry_eq_shownEntry he]
      refine congrArg _ ?_
      have hlines : cs.map (fun c => c.lines (depth + 1)) = (p.inputs id).map fun i =>
          (p.pathsWithin levels i).map fun (path, x) =>
            "".pushn ' ' (2 * (depth + 1 + path.length)) ++ (p.shownEntry verbose x).text := by
        rw [← forall₂_eq_eq_eq, forall₂_map_left_iff, forall₂_map_right_iff]
        exact ((Result.mapM_eq_ok.mp hcs).imp fun _ _ hc => ih hc).flip
      -- The lines below an input do not depend on its place.
      calc cs.flatMap (fun c => c.lines (depth + 1))
          = ((p.inputs id).zipIdx.map Prod.fst).flatMap fun i =>
              (p.pathsWithin levels i).map fun (path, x) =>
                "".pushn ' ' (2 * (depth + 1 + path.length)) ++ (p.shownEntry verbose x).text := by
            rw [zipIdx_map_fst, flatMap_def, flatMap_def, hlines]
        _ = _ := by
            rw [flatMap_map]
            refine flatMap_congr fun a _ => ?_
            rw [map_map]
            refine map_congr_left fun b _ => ?_
            simp [Nat.add_assoc, Nat.add_comm 1]

/-- A plan with a root has the tree of its root, or none. -/
theorem tree?_eq_ok {root : NodeId} {o : Option ExplainTree} (hroot : p.root? = some root) :
    p.tree? verbose = .ok o ↔
      ∃ t, p.treeWithin verbose (p.arena.size + 1) root = .ok t ∧ some t = o := by
  rw [tree?, hroot, Option.mapM_some]
  exact Result.bind_eq_ok.trans (exists_congr fun t => and_congr_right fun _ => Result.pure_eq_ok)

theorem tree?_eq_some {root : NodeId} (hroot : p.root? = some root) :
    p.tree? verbose = .ok (some t) ↔
      p.treeWithin verbose (p.arena.size + 1) root = .ok t := by
  simp [tree?_eq_ok hroot]

theorem tree?_failsOnly (p : Plan) (verbose : Bool) :
    Result.FailsOnly .overflow (p.tree? verbose) := by
  rw [tree?]
  cases p.root? with
  | none => exact .pure
  | some root => exact .bind (treeWithin_failsOnly _ _ _ _) fun _ => .pure

end Plan

/-! ### The trees of a query -/

namespace Query

variable {q : Query} {verbose : Bool}

theorem explainAll_eq_mapM (qs : List Query) :
    explainAll verbose qs = qs.mapM (explain verbose) := by
  induction qs with
  | nil => rfl
  | cons q qs ih =>
      rw [explainAll, mapM_cons, ih]

/-- A query is shown by the tree of its plan and by what shows its subqueries, if all of them can be
shown. -/
theorem explain_eq_ok {x : Explanation} : q.explain verbose = .ok x ↔
    q.plan.tree? verbose = .ok x.base ∧
      Forall₂ (fun s y => s.explain verbose = .ok y) q.subqueries x.subqueries := by
  obtain ⟨plan, subqueries⟩ := q
  obtain ⟨base, shown⟩ := x
  simp only [explain, explainAll_eq_mapM, Result.bind_eq_ok, Result.pure_eq_ok, Result.mapM_eq_ok,
    Explanation.mk.injEq]
  constructor
  · rintro ⟨_, hbase, _, hshown, rfl, rfl⟩
    exact ⟨hbase, hshown⟩
  · rintro ⟨hbase, hshown⟩
    exact ⟨_, hbase, _, hshown, rfl, rfl⟩

/-- A query can be shown exactly if its plan and its subqueries can. -/
theorem exists_explain_iff : (∃ x, q.explain verbose = .ok x) ↔
    (∃ o, q.plan.tree? verbose = .ok o) ∧ ∀ s ∈ q.subqueries, ∃ x, s.explain verbose = .ok x := by
  constructor
  · rintro ⟨x, hx⟩
    obtain ⟨hbase, hshown⟩ := explain_eq_ok.mp hx
    refine ⟨⟨_, hbase⟩, fun s hs => ?_⟩
    obtain ⟨y, -, hy⟩ := Result.mapM_mem_left (Result.mapM_eq_ok.mpr hshown) hs
    exact ⟨y, hy⟩
  · rintro ⟨⟨base, hbase⟩, hall⟩
    obtain ⟨shown, hshown⟩ := Result.exists_mapM hall
    exact ⟨⟨base, shown⟩, explain_eq_ok.mpr ⟨hbase, Result.mapM_eq_ok.mp hshown⟩⟩

mutual

/-- Only an overflow keeps a query from being shown. -/
theorem explain_failsOnly (verbose : Bool) : (q : Query) →
    Result.FailsOnly .overflow (q.explain verbose)
  | ⟨plan, subqueries⟩ => by
      rw [explain]
      exact .bind (plan.tree?_failsOnly verbose) fun _ =>
        .bind (explainAll_failsOnly verbose subqueries) fun _ => .pure

theorem explainAll_failsOnly (verbose : Bool) : (qs : List Query) →
    Result.FailsOnly .overflow (explainAll verbose qs)
  | [] => .pure
  | q :: qs => by
      rw [explainAll]
      exact .bind (explain_failsOnly verbose q) fun _ =>
        .bind (explainAll_failsOnly verbose qs) fun _ => .pure

end

/-- The text is made of the lines of the tree, once everything can be shown. -/
theorem treeText_eq_ok {text : String} : q.treeText verbose = .ok text ↔
    ∃ x, q.explain verbose = .ok x ∧
      String.join (((x.base.map (ExplainTree.lines 0)).getD []).map fun line => line ++ "\n") =
        text := by
  rw [treeText, Result.bind_eq_ok]
  refine exists_congr fun x => and_congr_right fun _ => ?_
  cases x.base <;> exact Result.pure_eq_ok

theorem exists_treeText_iff :
    (∃ text, q.treeText verbose = .ok text) ↔ ∃ x, q.explain verbose = .ok x := by
  simp only [treeText_eq_ok, exists_comm (α := String), exists_and_left, exists_eq', and_true]

/-- Without a cycle the text has a line for each path from the root. -/
theorem exists_lines_of_treeText {root : NodeId} {text : String} (hroot : q.plan.root? = some root)
    (hno : ¬ReachesCycle q.plan.HasInput root) (htext : q.treeText verbose = .ok text) :
    ∃ lines : List (List Nat × Entry),
      lines.Pairwise (fun a b => a.1 < b.1) ∧
      (∀ path e, (path, e) ∈ lines ↔ ∃ x, q.plan.follow? root path = some x ∧
        (q.plan.node x).entry verbose = .ok e) ∧
      text = String.join (lines.map fun (path, e) => Plan.pathLine path e ++ "\n") := by
  obtain ⟨⟨base, shown⟩, hexplain, rfl⟩ := Query.treeText_eq_ok.mp htext
  obtain ⟨t, htree, rfl⟩ := (Plan.tree?_eq_ok hroot).mp (Query.explain_eq_ok.mp hexplain).1
  refine ⟨(q.plan.pathsWithin (q.plan.arena.size + 1) root).map fun (path, x) =>
    (path, q.plan.shownEntry verbose x), pairwise_map.mpr Plan.pairwise_pathsWithin,
    fun path e => ?_, ?_⟩
  · simp only [mem_map, Prod.exists, Prod.mk.injEq, Plan.mem_pathsWithin]
    constructor
    · rintro ⟨path, x, ⟨hlength, hx⟩, rfl, rfl⟩
      obtain ⟨e, he⟩ := Plan.exists_treeWithin_iff.mp ⟨t, htree⟩ path x hlength hx
      exact ⟨x, hx, (Plan.entry_eq_shownEntry he).symm ▸ he⟩
    · rintro ⟨x, hx, he⟩
      exact ⟨path, x, ⟨Nat.le_succ_of_le (Plan.length_le_of_follow? hno hx), hx⟩, rfl,
        Plan.entry_eq_shownEntry he⟩
  · rw [Option.map_some, Option.getD_some, Plan.lines_of_treeWithin htree, map_map, map_map]
    refine congrArg String.join (map_congr_left fun a _ => ?_)
    simp [Plan.pathLine]

/-- **An explained plan is the complete unfolding.** On every plan, cyclic or not, the walk from the
root ends. It ends with a tree exactly if all entries on its way can be written, as they can where no
literal has more than eighteen digits behind the point; otherwise the program stops with an
overflow. There is at most one tree. No node of it stands below more edges than the arena has nodes
and one, and a node stands so deep only if the root reaches a cycle. If the root reaches none, as in
every plan without cycles, that tree is the one with a node for each path along inputs, and the text
has a line for each path, in lexicographic order and indented by two blanks for each step. Otherwise
there is no such tree. -/
theorem unfolding_exact (q : Query) (verbose : Bool) (root : NodeId)
    (hroot : q.plan.root? = some root) :
    ((∃ t, q.plan.tree? verbose = .ok (some t)) ↔
      ∀ path x, path.length ≤ q.plan.arena.size + 1 → q.plan.follow? root path = some x →
        ∃ e, (q.plan.node x).entry verbose = .ok e) ∧
    ((∀ n ∈ q.plan.arena, ∀ l ∈ n.op.literals, l.scale ≤ 18) →
      ∃ t, q.plan.tree? verbose = .ok (some t)) ∧
    (∀ e, q.plan.tree? verbose = .error e → e = .of .overflow) ∧
    (∀ u, q.plan.Explains verbose 0 root u ↔ q.plan.tree? verbose = .ok (some u)) ∧
    (∀ u, q.plan.IsUnfolding verbose root u ↔
      ¬ReachesCycle q.plan.HasInput root ∧ q.plan.tree? verbose = .ok (some u)) ∧
    (∀ t, q.plan.tree? verbose = .ok (some t) →
      (∀ path s, t.at? path = some s → path.length ≤ q.plan.arena.size + 1) ∧
      ((∃ path s, path.length = q.plan.arena.size + 1 ∧ t.at? path = some s) ↔
        ReachesCycle q.plan.HasInput root)) ∧
    ((∃ text, q.treeText verbose = .ok text) ↔ (∃ t, q.plan.tree? verbose = .ok (some t)) ∧
      ∀ s ∈ q.subqueries, ∃ x, s.explain verbose = .ok x) ∧
    (¬ReachesCycle q.plan.HasInput root → ∀ text, q.treeText verbose = .ok text →
      ∃ lines : List (List Nat × Entry), lines.Pairwise (fun a b => a.1 < b.1) ∧
        (∀ path e, (path, e) ∈ lines ↔ ∃ x, q.plan.follow? root path = some x ∧
          (q.plan.node x).entry verbose = .ok e) ∧
        text = String.join (lines.map fun (path, e) => Plan.pathLine path e ++ "\n")) := by
  simp only [Plan.tree?_eq_some hroot]
  refine ⟨Plan.exists_treeWithin_iff, fun hscales => ?_, q.plan.tree?_failsOnly verbose,
    fun _ => Plan.explains_iff, fun _ => Plan.isUnfolding_iff,
    fun t ht => ⟨fun _ _ hs => ((Plan.at?_of_treeWithin ht).mp hs).1,
      Plan.exists_at?_deepest_iff ht⟩, ?_, fun hno _ => exists_lines_of_treeText hroot hno⟩
  · refine Plan.exists_treeWithin_iff.mpr fun _ x _ _ => Node.exists_entry fun l hl => ?_
    rcases q.plan.node_mem_or_default x with hx | hx
    · exact Literal.exists_text (hscales _ hx l hl)
    · rw [hx] at hl
      cases hl
  · rw [exists_treeText_iff, exists_explain_iff]
    simp [Plan.tree?_eq_ok hroot]

end Query

namespace Plan

/-- The join of a table with itself, joined with itself. -/
def sharedJoins : Plan :=
  { arena := #[.make 0 [] (.scan ⟨⟨1, "t", [], false⟩, ["x"]⟩),
      .make 1 [⟨0⟩, ⟨0⟩] (.join ⟨.bool true, .inner⟩),
      .make 2 [⟨1⟩, ⟨1⟩] (.join ⟨.bool true, .left⟩)]
    order := (range 3).map NodeId.mk }

/-- A table filtered by a decimal with sixty-four digits behind the point. -/
def tinyFilter : Plan :=
  { arena := #[.make 0 [] (.scan ⟨⟨1, "t", [], false⟩, ["x"]⟩),
      .make 1 [⟨0⟩] (.filter ⟨.literal ⟨.int 1, .decimal, .decimal, 64, 1, 0, 0⟩⟩)]
    order := (range 2).map NodeId.mk }

end Plan

namespace Query

open Plan (sharedJoins tinyFilter)

/-- The table stands at four places of the tree, with nothing below, and no path is long enough to
be cut. -/
theorem unfolding_exact_sharedJoins : sharedJoins.root? = some ⟨2⟩ ∧
    ¬ReachesCycle sharedJoins.HasInput ⟨2⟩ ∧
    ∃ t, sharedJoins.tree? false = .ok (some t) ∧ sharedJoins.IsUnfolding false ⟨2⟩ t ∧
      (∀ path x, sharedJoins.follow? ⟨2⟩ path = some x → path.length < 4) ∧
      ∀ path ∈ [[0, 0], [0, 1], [1, 0], [1, 1]], ∃ s, t.at? path = some s ∧
        (sharedJoins.node ⟨0⟩).entry false = .ok s.entry ∧ s.children = [] := by
  have hordered : sharedJoins.Ordered sharedJoins.order := ⟨by decide, by decide, by decide⟩
  have hno : ¬ReachesCycle sharedJoins.HasInput ⟨2⟩ := hordered.not_reachesCycle (by decide)
  obtain ⟨-, hexists, -, -, hunfolds, hcut, -⟩ :=
    unfolding_exact (.ofPlan sharedJoins) false ⟨2⟩ rfl
  obtain ⟨t, ht⟩ := hexists (by decide)
  obtain ⟨hbound, hdeepest⟩ := hcut t ht
  have h : sharedJoins.IsUnfolding false ⟨2⟩ t := (hunfolds t).mpr ⟨hno, ht⟩
  refine ⟨rfl, hno, t, ht, h, fun path x hx => ?_, fun path hpath => ?_⟩
  · obtain ⟨s, hs⟩ := (h.places path).mpr ⟨x, hx⟩
    exact lt_of_le_of_ne (hbound path s hs) fun hlength => hno (hdeepest.mp ⟨path, s, hlength, hs⟩)
  · have hend : sharedJoins.follow? ⟨2⟩ path = some ⟨0⟩ := by
      revert path
      decide
    obtain ⟨s, hs⟩ := (h.places path).mpr ⟨_, hend⟩
    exact ⟨s, hs, h.entry _ _ _ hs hend, forall₂_nil_left_iff.mp (h.children _ _ _ hs hend)⟩

/-- The plan has no cycle, and still the walk from its root does not end with a tree: the condition
cannot be written. -/
theorem no_unfolding_tinyFilter : tinyFilter.root? = some ⟨1⟩ ∧
    ¬ReachesCycle tinyFilter.HasInput ⟨1⟩ ∧
    tinyFilter.tree? false = .error (.of .overflow) ∧
    ¬∃ t, tinyFilter.Explains false 0 ⟨1⟩ t ∨ tinyFilter.IsUnfolding false ⟨1⟩ t := by
  have hordered : tinyFilter.Ordered tinyFilter.order := ⟨by decide, by decide, by decide⟩
  have hfails : tinyFilter.tree? false = .error (.of .overflow) := rfl
  refine ⟨rfl, hordered.not_reachesCycle (by decide), hfails, ?_⟩
  rintro ⟨t, ht | ht⟩
  · have htree := (Plan.tree?_eq_some rfl).mpr (Plan.explains_iff.mp ht)
    cases hfails.symm.trans htree
  · have htree := (Plan.tree?_eq_some rfl).mpr (Plan.isUnfolding_iff.mp ht).2
    cases hfails.symm.trans htree

end Query

end QueryPlan
