import QueryPlan.Proofs.Flattening.Inputs
import QueryPlan.Proofs.Scope.Chains
import QueryPlan.Proofs.Scope.Removal
import QueryPlan.Proofs.Scope.Windows
/-!
# QueryPlan.Proofs.FilteredJoins.Kept

**Filters over inner joins that stay where they are.** A filter right above an inner join belongs to
a chain of joins, for its condition joins too. `Plan.KeepsJoins` says that an edit leaves alone
which nodes are filters and joins, which filters stand on joins, and in what order these filters and
the joins are live. Nor does a join get a reader besides those that take over from another one. So a
filter that is the only reader of the inner join below it stays that (`Plan.FiltersOwnJoins`). Whatever
else a plan consists of may change, come and go.

This speaks of the whole arena, so it passes from edits to loops and from loops to passes. Edits
that do not concern joins are those of a projection, the insertion of a node that is neither a join
nor a filter, and the removal of nodes that are not watched.
-/

namespace QueryPlan

open List

/-- The part that an operator plays in a chain of joins. -/
inductive JoinRole
  | filter
  | join (kind : JoinKind)
  | other
  deriving DecidableEq, Repr

/-- The part of an operator in a chain of joins. -/
def Operator.joinRole : Operator → JoinRole
  | filter _ => .filter
  | join j => .join j.kind
  | _ => .other

@[simp] theorem Operator.joinRole_mapExprs (f : Expr → Expr) (op : Operator) :
    (op.mapExprs f).joinRole = op.joinRole := by
  cases op <;> rfl

@[simp] theorem Operator.joinRole_mapPositions (f : Nat → Nat) (op : Operator) :
    (op.mapPositions f).joinRole = op.joinRole := by
  cases op <;> rfl

@[simp] theorem Node.joinRole_moved (n : Node) (old new : NodeId) (mapping : Option ColumnMap)
    (columns : List ColumnRef) : (n.moved old new mapping columns).op.joinRole = n.op.joinRole := by
  unfold moved movedOp
  dsimp only
  split <;> simp

namespace Plan

variable {p q r : Plan} {id join old new : NodeId} {mapping : Option ColumnMap}

theorem isFilter_iff_joinRole : p.isFilter id = true ↔ (p.op id).joinRole = .filter := by
  unfold isFilter
  cases p.op id <;> simp [Operator.joinRole]

theorem isBinaryJoin_iff_joinRole :
    p.isBinaryJoin id = true ↔ ∃ kind, (p.op id).joinRole = .join kind := by
  unfold isBinaryJoin
  cases p.op id <;> simp [Operator.joinRole]

theorem isBinaryJoin_eq_false_iff :
    p.isBinaryJoin id = false ↔ ∀ kind, (p.op id).joinRole ≠ .join kind := by
  rw [← Bool.not_eq_true, isBinaryJoin_iff_joinRole, not_exists]

theorem isInnerJoin_iff_joinRole :
    p.isInnerJoin id = true ↔ (p.op id).joinRole = .join .inner := by
  unfold isInnerJoin
  cases p.op id <;> simp [Operator.joinRole]

/-- A handle without a node is no join. -/
theorem isBinaryJoin_nextId (p : Plan) : p.isBinaryJoin p.nextId = false := by
  rw [isBinaryJoin, op_nextId]
  rfl

/-! ### Filters over inner joins -/

/-- The inner join right below a filter. -/
def filteredJoin? (p : Plan) (id : NodeId) : Option NodeId :=
  match p.inputs id with
  | [i] => if p.isFilter id && p.isInnerJoin i then some i else none
  | _ => none

/-- The live filters over inner joins, each with its join, in order. -/
def filteredJoins (p : Plan) : List (NodeId × NodeId) :=
  p.order.filterMap fun id => (p.filteredJoin? id).map fun join => (id, join)

theorem filteredJoin?_eq_some :
    p.filteredJoin? id = some join ↔
      p.inputs id = [join] ∧ p.isFilter id = true ∧ p.isInnerJoin join = true := by
  unfold filteredJoin?
  split
  · next i hinputs =>
    rw [hinputs]
    constructor
    · intro h
      obtain ⟨hcond, h⟩ := Option.ite_none_right_eq_some.mp h
      cases h
      exact ⟨rfl, by simpa using hcond⟩
    · rintro ⟨hi, hkind⟩
      obtain rfl := singleton_inj.mp hi
      exact if_pos (by simpa using hkind)
  · next hinputs =>
    refine ⟨nofun, ?_⟩
    rintro ⟨hi, -⟩
    exact absurd hi (hinputs join)

theorem mem_filteredJoins :
    (id, join) ∈ p.filteredJoins ↔ id ∈ p.order ∧ p.filteredJoin? id = some join := by
  rw [filteredJoins, mem_filterMap]
  constructor
  · rintro ⟨n, hn, h⟩
    obtain ⟨i, hi, ⟨⟩⟩ := Option.map_eq_some_iff.mp h
    exact ⟨hn, hi⟩
  · rintro ⟨hn, hi⟩
    exact ⟨id, hn, by rw [hi]; rfl⟩

/-- The top of the chain below a node is a filter exactly if the node is a filter over an inner
join, and is this node then. -/
theorem filter_joinRoot? (p : Plan) (id : NodeId) :
    (p.joinRoot? id).filter p.isFilter = (p.filteredJoin? id).map fun _ => id := by
  refine Option.ext fun x => ?_
  rw [Option.filter_eq_some_iff, Option.map_eq_some_iff]
  constructor
  · rintro ⟨hroot, hfilter⟩
    obtain ⟨i, hinputs, hjoin, ⟨rfl, -, hinner⟩ | rfl⟩ := joinRoot?_eq_some hroot
    · exact ⟨i, filteredJoin?_eq_some.mpr ⟨hinputs, hfilter, hinner⟩, rfl⟩
    · rw [isBinaryJoin_of_isFilter hfilter] at hjoin
      cases hjoin
  · rintro ⟨i, hi, rfl⟩
    obtain ⟨hinputs, hfilter, hinner⟩ := filteredJoin?_eq_some.mp hi
    obtain ⟨f, hf⟩ := isFilter_iff.mp hfilter
    refine ⟨?_, hfilter⟩
    unfold isInnerJoin at hinner
    split at hinner
    · next j hop =>
      have hkind : j.kind = .inner := by simpa using hinner
      simp only [joinRoot?, hinputs, hop, hf, hkind]
    · cases hinner

/-- The filters among the tops of the chains of joins are the filters over inner joins. -/
theorem filter_joinRoots (p : Plan) :
    p.joinRoots.filter p.isFilter = p.filteredJoins.map Prod.fst := by
  rw [joinRoots, filteredJoins, map_filterMap, filter_filterMap]
  refine filterMap_congr fun id _ => ?_
  rw [Option.map_map]
  exact p.filter_joinRoot? id

/-- A filter over an inner join is the only reader of that join. -/
def FiltersOwnJoins (p : Plan) : Prop :=
  ∀ x ∈ p.order, ∀ i, p.filteredJoin? x = some i → p.OnlyReader i x

/-- Inner joins belong to the filters right above them if no other node reads them. -/
theorem Arranged.joinsBelongToFilters_iff (h : p.Arranged p.order) :
    p.JoinsBelongToFilters ↔ p.FiltersOwnJoins := by
  constructor
  · intro hfilters x hx i hi
    obtain ⟨hinputs, hfilter, hinner⟩ := filteredJoin?_eq_some.mp hi
    have hread : i ∈ p.inputs x := hinputs ▸ mem_singleton_self i
    exact ⟨hread, fun n hn hnread =>
      reader_unique (hfilters x hx hfilter i hread hinner) hn hnread hx hread⟩
  · intro howns x hx hfilter i hi hinner
    obtain ⟨f, hop⟩ := isFilter_iff.mp hfilter
    obtain ⟨y, hinputs⟩ : ∃ y, p.inputs x = [y] :=
      length_eq_one_iff.mp (by simpa [hop, Operator.arity, Arity.admits] using h.arity x hx)
    rw [hinputs, mem_singleton] at hi
    subst hi
    exact useCount_eq_one h.nodup hx hinputs
      (howns x hx i (filteredJoin?_eq_some.mpr ⟨hinputs, hfilter, hinner⟩)).2

/-- Whether a node is a join or a filter over an inner join. -/
def isWatched (p : Plan) (id : NodeId) : Bool :=
  p.isBinaryJoin id || (p.filteredJoin? id).isSome

/-- An edit leaves the joins and the filters over inner joins as they are. -/
structure KeepsJoins (p q : Plan) : Prop where
  size_le : p.arena.size ≤ q.arena.size
  role_eq : ∀ n, (q.op n).joinRole = (p.op n).joinRole
  /-- A filter stays on its join, and no other filter comes to stand on a join. -/
  inputs_iff : ∀ n i kind, (p.op n).joinRole = .filter → (p.op i).joinRole = .join kind →
    (q.inputs n = [i] ↔ p.inputs n = [i])
  order_eq : q.order.filter p.isWatched = p.order.filter p.isWatched
  /-- What reads an inner join did so, or takes over from a node that is no filter over it. -/
  readers : ∀ n ∈ q.order, ∀ i ∈ q.inputs n, p.isInnerJoin i = true →
    (n ∈ p.order ∧ i ∈ p.inputs n) ∨ ∃ m ∈ p.order, i ∈ p.inputs m ∧ p.filteredJoin? m = none

namespace KeepsJoins

theorem refl (p : Plan) : KeepsJoins p p :=
  ⟨Nat.le_refl _, fun _ => rfl, fun _ _ _ _ _ => Iff.rfl, rfl, fun _ hn _ hi _ => .inl ⟨hn, hi⟩⟩

section

variable (h : KeepsJoins p q)
include h

theorem isBinaryJoin_eq (n : NodeId) : q.isBinaryJoin n = p.isBinaryJoin n := by
  rw [Bool.eq_iff_iff, isBinaryJoin_iff_joinRole, isBinaryJoin_iff_joinRole, h.role_eq]

theorem filteredJoin?_eq (n : NodeId) : q.filteredJoin? n = p.filteredJoin? n := by
  refine Option.ext fun i => ?_
  simp only [filteredJoin?_eq_some, isFilter_iff_joinRole, isInnerJoin_iff_joinRole, h.role_eq]
  exact and_congr_left fun ⟨hfilter, hjoin⟩ => h.inputs_iff n i .inner hfilter hjoin

theorem isWatched_eq : q.isWatched = p.isWatched := by
  funext n
  rw [isWatched, isWatched, h.isBinaryJoin_eq, h.filteredJoin?_eq]

/-- A watched node is live if it was. -/
theorem mem_order_iff (hid : p.isWatched id = true) : id ∈ q.order ↔ id ∈ p.order := by
  have hmem : id ∈ q.order.filter p.isWatched ↔ id ∈ p.order.filter p.isWatched := by
    rw [h.order_eq]
  simpa [hid] using hmem

/-- The filters over inner joins are the same, in the same order. -/
theorem filteredJoins_eq : q.filteredJoins = p.filteredJoins := by
  have hwatched : ∀ l : List NodeId,
      (l.filter p.isWatched).filterMap (fun id => (p.filteredJoin? id).map fun join => (id, join)) =
        l.filterMap fun id => (p.filteredJoin? id).map fun join => (id, join) := by
    intro l
    rw [filterMap_filter]
    refine filterMap_congr fun id _ => ?_
    cases hjoin : p.filteredJoin? id <;> simp [isWatched, hjoin]
  rw [filteredJoins, filteredJoins, funext h.filteredJoin?_eq, ← hwatched, h.order_eq, hwatched]

/-- A filter that was the only reader of its join still is. -/
theorem filtersOwnJoins (howns : p.FiltersOwnJoins) : q.FiltersOwnJoins := by
  intro x hx i hi
  have hold : p.filteredJoin? x = some i := h.filteredJoin?_eq x ▸ hi
  have hwatched : p.isWatched x = true := by simp [isWatched, hold]
  obtain ⟨-, -, hinner⟩ := filteredJoin?_eq_some.mp hold
  obtain ⟨-, honly⟩ := howns x ((h.mem_order_iff hwatched).mp hx) i hold
  refine ⟨(filteredJoin?_eq_some.mp hi).1 ▸ mem_singleton_self i, fun n hn hread => ?_⟩
  rcases h.readers n hn i hread hinner with ⟨hn, hread⟩ | ⟨m, hm, hread, hnone⟩
  · exact honly n hn hread
  · rw [honly m hm hread, hold] at hnone
    cases hnone

end

theorem trans (h : KeepsJoins p q) (h' : KeepsJoins q r) : KeepsJoins p r where
  size_le := Nat.le_trans h.size_le h'.size_le
  role_eq n := (h'.role_eq n).trans (h.role_eq n)
  inputs_iff n i kind hn hi := (h'.inputs_iff n i kind ((h.role_eq n).trans hn)
    ((h.role_eq i).trans hi)).trans (h.inputs_iff n i kind hn hi)
  order_eq := by
    have horder := h'.order_eq
    rw [h.isWatched_eq] at horder
    exact horder.trans h.order_eq
  readers n hn i hi hinner := by
    have hinner' : q.isInnerJoin i = true := by
      rwa [isInnerJoin_iff_joinRole, h.role_eq, ← isInnerJoin_iff_joinRole]
    rcases h'.readers n hn i hi hinner' with ⟨hn, hi⟩ | ⟨m, hm, hi, hnone⟩
    · exact h.readers n hn i hi hinner
    · rcases h.readers m hm i hi hinner with ⟨hm, hi⟩ | hfound
      · exact .inr ⟨m, hm, hi, h.filteredJoin?_eq m ▸ hnone⟩
      · exact .inr hfound

/-! ### Edits -/

/-- Nodes leave the plan that are not watched. -/
theorem of_filter {f : NodeId → Bool} (harena : q.arena = p.arena)
    (horder : q.order = p.order.filter f)
    (hgone : ∀ id ∈ p.order, p.isWatched id = true → f id = true) : KeepsJoins p q := by
  have hnode : q.node = p.node := by
    funext n
    rw [node, node, harena]
  have hinputs : q.inputs = p.inputs := by
    funext n
    rw [inputs, inputs, hnode]
  refine ⟨Nat.le_of_eq (by rw [harena]), fun n => ?_, fun n i _ _ _ => ?_, ?_,
    fun n hn i hi _ => .inl ⟨(mem_filter.mp (horder ▸ hn)).1, hinputs ▸ hi⟩⟩
  · rw [Plan.op, Plan.op, hnode]
  · rw [hinputs]
  · rw [horder, filter_filter]
    refine filter_congr fun id hid => ?_
    cases hwatched : p.isWatched id with
    | true => rw [hgone id hid hwatched]; rfl
    | false => rfl

/-- One node changes and keeps its part. If it is a filter, it stays on its join, and it reads no
other inner joins. -/
theorem modify {f : Node → Node} (hrole : (f (p.node id)).op.joinRole = (p.op id).joinRole)
    (hinputs : ∀ i kind, (p.op id).joinRole = .filter → (p.op i).joinRole = .join kind →
      ((f (p.node id)).inputs = [i] ↔ p.inputs id = [i]))
    (hreads : ∀ i ∈ (f (p.node id)).inputs, p.isInnerJoin i = true → i ∈ p.inputs id) :
    KeepsJoins p (p.modify id f) := by
  by_cases hin : id.index < p.arena.size
  · refine ⟨Nat.le_of_eq (size_modify f).symm, fun n => ?_, fun n i kind hn hi => ?_, rfl,
      fun n hn i hi hinner => .inl ⟨hn, ?_⟩⟩
    · by_cases hne : n = id
      · rw [hne, Plan.op, node_modify_self _ hin, hrole]
      · rw [op_congr (node_modify_of_ne f hne)]
    · by_cases hne : n = id
      · subst hne
        rw [inputs, node_modify_self _ hin]
        exact hinputs i kind hn hi
      · rw [inputs_congr (node_modify_of_ne f hne)]
    · by_cases hne : n = id
      · rw [inputs, hne, node_modify_self _ hin] at hi
        exact hne ▸ hreads i hi hinner
      · rwa [inputs_congr (node_modify_of_ne f hne)] at hi
  · rw [modify_of_size_le f (Nat.le_of_not_lt hin)]
    exact .refl p

theorem setOp {op : Operator} (hrole : op.joinRole = (p.op id).joinRole) :
    KeepsJoins p (p.setOp id op) :=
  .modify hrole (fun _ _ _ _ => Iff.rfl) fun _ hi _ => hi

/-- A node reads another one in place of the old one, if that is no join, and neither is the old one
or the node is no filter. -/
theorem replaceInput {node : NodeId} (h : p.replaceInput node old new mapping = .ok q)
    (hfree : old = new ∨ p.isBinaryJoin new = false ∧
      ((p.op node).joinRole ≠ .filter ∨ p.isBinaryJoin old = false)) : KeepsJoins p q := by
  obtain ⟨columns, -, -, -, rfl⟩ := replaceInput_eq_ok.mp h
  rcases hfree with rfl | ⟨hnew, hfree⟩
  · have hsame : (p.inputs node).map (old.replaced old) = p.inputs node := by
      refine map_congr_left (fun x _ => ?_) |>.trans (map_id _)
      by_cases hx : x = old
      · rw [hx, NodeId.replaced_self, id]
      · rw [NodeId.replaced_of_ne _ hx, id]
    refine .modify (Node.joinRole_moved ..) (fun i kind _ _ => ?_) fun i hi _ => ?_
    · rw [Node.inputs_moved]
      exact iff_of_eq (congrArg (· = [i]) hsame)
    · rw [Node.inputs_moved] at hi
      exact hsame ▸ hi
  -- What the node reads and is a join, it read before.
  have hread : ∀ x i kind, (p.op i).joinRole = .join kind → old.replaced new x = i → x = i := by
    rintro x i kind hjoin rfl
    by_cases hx : x = old
    · rw [hx, NodeId.replaced_self] at hjoin
      exact absurd hjoin (isBinaryJoin_eq_false_iff.mp hnew kind)
    · rw [NodeId.replaced_of_ne new hx]
  refine .modify (Node.joinRole_moved ..) (fun i kind hfilter hjoin => ?_) fun i hi hinner => ?_
  · rw [Node.inputs_moved, map_eq_singleton_iff]
    constructor
    · rintro ⟨x, hx, hi⟩
      exact hread x i kind hjoin hi ▸ hx
    · intro hx
      refine ⟨i, hx, NodeId.replaced_of_ne new ?_⟩
      rintro rfl
      exact hfree.elim (absurd hfilter) fun hold => isBinaryJoin_eq_false_iff.mp hold kind hjoin
  · rw [Node.inputs_moved] at hi
    obtain ⟨x, hx, hi⟩ := mem_map.mp hi
    exact hread x i .inner (isInnerJoin_iff_joinRole.mp hinner) hi ▸ hx

/-- A node is added that is neither a filter nor a join. It reads no inner joins, or reads them in
place of another node. -/
theorem insert (node : Node) {pre post : List NodeId} (hrole : node.op.joinRole = .other)
    (hreads : ∀ i ∈ node.inputs, p.isInnerJoin i = true →
      ∃ m ∈ p.order, i ∈ p.inputs m ∧ p.filteredJoin? m = none)
    (horder : p.order = pre ++ post) :
    KeepsJoins p { p.alloc node with order := pre ++ p.nextId :: post } := by
  have hdefault : (p.op p.nextId).joinRole = .other := by rw [op_nextId]; rfl
  refine ⟨?_, fun n => ?_, fun n i kind hn _ => ?_, ?_, fun n hn i hi hinner => ?_⟩
  · exact Nat.le_of_lt (by simp)
  · by_cases hn : n = p.nextId
    · rw [hn, hdefault]
      exact (congrArg (fun m => m.op.joinRole) (node_alloc_self node)).trans hrole
    · exact congrArg (fun m => m.op.joinRole) (node_alloc_of_ne node hn)
  · have hne : n ≠ p.nextId := by
      rintro rfl
      rw [hdefault] at hn
      cases hn
    have hsame : (p.alloc node).inputs n = p.inputs n := inputs_congr (node_alloc_of_ne node hne)
    change (p.alloc node).inputs n = [i] ↔ _
    rw [hsame]
  · have hjoin : p.isBinaryJoin p.nextId = false := isBinaryJoin_nextId p
    have hnone : p.filteredJoin? p.nextId = none := by
      rw [filteredJoin?, inputs, node_nextId]
      rfl
    rw [horder, filter_append, filter_append,
      filter_cons_of_neg (by simp [isWatched, hjoin, hnone])]
  · change i ∈ (p.alloc node).inputs n at hi
    by_cases hnew : n = p.nextId
    · rw [hnew, inputs, node_alloc_self] at hi
      exact .inr (hreads i hi hinner)
    · rw [inputs_congr (node_alloc_of_ne node hnew)] at hi
      exact .inl ⟨horder ▸ (mem_middle_iff.mp hn).resolve_left hnew, hi⟩

/-! ### Loops -/

/-- What each step of a loop keeps, the loop keeps. -/
theorem foldlM {α : Type} {f : Plan → α → Result Plan} {as : List α} (hq : as.foldlM f p = .ok q)
    (step : ∀ r a r', KeepsJoins p r → f r a = .ok r' → KeepsJoins r r') : KeepsJoins p q :=
  Result.foldlM_keeps (motive := KeepsJoins p) hq (.refl p)
    fun a _ r r' hr hstep => hr.trans (step r a r' hr hstep)

/-- What each step of a loop that takes ids keeps, the loop keeps. -/
theorem foldlM_fresh {α : Type} {f : Plan → α → Fresh Plan} {as : List α} {next next' : Nat}
    (hq : as.foldlM f p next = .ok (q, next'))
    (step : ∀ r a r' n n', KeepsJoins p r → f r a n = .ok (r', n') → KeepsJoins r r') :
    KeepsJoins p q :=
  Fresh.foldlM_keeps (motive := KeepsJoins p) hq (.refl p)
    fun a _ r r' n n' hr hstep => hr.trans (step r a r' n n' hr hstep)

/-- Everything that reads a node reads another one in its place. -/
theorem replaceInputEverywhere (h : p.replaceInputEverywhere old new mapping = .ok q)
    (hold : p.isBinaryJoin old = false) (hnew : p.isBinaryJoin new = false) : KeepsJoins p q :=
  foldlM h fun _ _ _ hr hstep => .replaceInput hstep
    (.inr ⟨(hr.isBinaryJoin_eq new).trans hnew, .inr ((hr.isBinaryJoin_eq old).trans hold)⟩)

end KeepsJoins

end Plan

end QueryPlan
