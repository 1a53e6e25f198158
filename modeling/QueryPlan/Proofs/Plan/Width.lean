import QueryPlan.Proofs.Plan.Arrangement
/-!
# QueryPlan.Proofs.Plan.Width

**The width of a node and the references to its columns.** The walks of `Plan.width`,
`Plan.output` and `Plan.fieldName` succeed on every arranged node. They find the value that comes
from the layouts of the operators alone (`Plan.columnCount`, `Plan.columnNames`), and the
references carry the handles of the nodes that the node exposes (`Plan.exposed`).
-/

namespace QueryPlan

open List

/-- The number of columns of a node, from the numbers of columns of its inputs. -/
def Layout.width : Layout → List Nat → Nat
  | own width _, _ => width
  | first, widths => widths.headD 0
  | all, widths => widths.sum

/-- The names of the columns of a node, from those of its inputs. -/
def Layout.columnNames : Layout → List (List String) → List String
  | own _ names, _ => names
  | first, names => names.headD []
  | all, names => names.flatten

/-- An operator that shows the columns of its first input has one. -/
theorem Operator.inputs_of_layout_first {op : Operator} (hop : op.layout = .first)
    {inputs : List NodeId} (h : op.arity.admits inputs.length = true) :
    ∃ i rest, inputs = i :: rest := by
  cases inputs with
  | nil => cases op <;> simp_all [layout, arity, Arity.admits]
  | cons i rest => exact ⟨i, rest, rfl⟩

theorem Operator.length_of_layout_own {op : Operator} (hop : op.FieldsMatch) {width : Nat}
    {names : List String} (hlayout : op.layout = .own width names) : names.length = width := by
  cases op <;> simp_all [layout, FieldsMatch]
  all_goals obtain ⟨rfl, rfl⟩ := hlayout
  all_goals simp

/-- A node that takes one input has one. -/
theorem Arity.exactly_one_admits {inputs : List NodeId}
    (h : (Arity.exactly 1).admits inputs.length = true) : ∃ i, inputs = [i] := by
  simpa [admits, length_eq_one_iff] using h

/-- The place of an element of a list does not change if nothing else becomes equal to it. -/
theorem idxOf_map_of_inj {α β : Type} [DecidableEq α] [DecidableEq β] {f : α → β} {as : List α}
    {a : α} (h : ∀ b ∈ as, f b = f a → b = a) : (as.map f).idxOf (f a) = as.idxOf a := by
  induction as with
  | nil => rfl
  | cons b as ih =>
      obtain ⟨hb, has⟩ := forall_mem_cons.mp h
      rw [map_cons, idxOf_cons, idxOf_cons, ih has]
      have hbeq : (f b == f a) = (b == a) := by
        rw [Bool.eq_iff_iff, beq_iff_eq, beq_iff_eq]
        exact ⟨hb, congrArg f⟩
      rw [hbeq]

theorem ColumnRef.nodup_range (source : NodeId) (width : Nat) : (range source width).Nodup :=
  List.nodup_range.map fun _ _ h => congrArg ColumnRef.index h

theorem ColumnRef.getElem?_range {source : NodeId} {width k : Nat} {c : ColumnRef} :
    (range source width)[k]? = some c ↔ k < width ∧ c = ⟨source, k⟩ := by
  rw [range, getElem?_map, Option.map_eq_some_iff]
  constructor
  · rintro ⟨i, hi, rfl⟩
    obtain ⟨hlt, rfl⟩ := List.getElem?_eq_some_iff.mp hi
    rw [List.length_range] at hlt
    exact ⟨hlt, by rw [getElem_range]⟩
  · rintro ⟨hlt, rfl⟩
    exact ⟨k, List.getElem?_range hlt, rfl⟩

theorem ColumnRef.idxOf_range {source : NodeId} {width k : Nat} (hk : k < width) :
    (range source width).idxOf ⟨source, k⟩ = k := by
  have hlength : k < (range source width).length := by rwa [length_range]
  have hget : (range source width)[k] = ⟨source, k⟩ := by simp [range]
  rw [← hget, (nodup_range source width).idxOf_getElem]

namespace Plan

/-- The number of columns of a node. -/
def columnCount (p : Plan) : NodeId → Nat :=
  p.fold 0 fun id widths => (p.op id).layout.width widths

/-- The names of the columns of a node. -/
def columnNames (p : Plan) : NodeId → List String :=
  p.fold [] fun id names => (p.op id).layout.columnNames names

/-- The nodes whose handles the references to the columns of a node carry. -/
def exposed (p : Plan) (id : NodeId) : List NodeId :=
  if (p.op id).isJoin then p.inputs id else [id]

/-- All columns of some nodes, in order. -/
def columnsOf (p : Plan) (ids : List NodeId) : List ColumnRef :=
  ids.flatMap fun i => ColumnRef.range i (p.columnCount i)

section

variable {p q : Plan} {l : List NodeId} {id : NodeId}

theorem exposed_of_join (hid : (p.op id).isJoin = true) : p.exposed id = p.inputs id := if_pos hid

theorem exposed_of_not_join (hid : (p.op id).isJoin = false) : p.exposed id = [id] := by
  simp [exposed, hid]

theorem mem_columnsOf {ids : List NodeId} {c : ColumnRef} :
    c ∈ p.columnsOf ids ↔ c.source ∈ ids ∧ c.index < p.columnCount c.source := by
  simp only [columnsOf, mem_flatMap, ColumnRef.mem_range]
  constructor
  · rintro ⟨i, hi, rfl, hc⟩
    exact ⟨hi, hc⟩
  · exact fun ⟨hi, hc⟩ => ⟨_, hi, rfl, hc⟩

theorem length_columnsOf (ids : List NodeId) :
    (p.columnsOf ids).length = (ids.map p.columnCount).sum := by
  simp only [columnsOf, length_flatMap, ColumnRef.length_range]

theorem SameShape.columnCount_eq (h : SameShape p q) : q.columnCount = p.columnCount :=
  h.fold_eq 0 fun _ => Layout.width

theorem SameShape.columnNames_eq (h : SameShape p q) : q.columnNames = p.columnNames :=
  h.fold_eq [] fun _ => Layout.columnNames

theorem SameShape.columnsOf_eq (h : SameShape p q) (ids : List NodeId) :
    q.columnsOf ids = p.columnsOf ids := by
  rw [columnsOf, columnsOf, h.columnCount_eq]

theorem SameShape.exposed_eq (h : SameShape p q) (id : NodeId) : q.exposed id = p.exposed id := by
  rw [exposed, exposed, h.isJoin_eq, h.inputs_eq]

/-! ### Places of columns -/

section Places

variable {ids : List NodeId} {x : NodeId} {k : Nat}

theorem columnsOf_cons (p : Plan) (x : NodeId) (ids : List NodeId) :
    p.columnsOf (x :: ids) = ColumnRef.range x (p.columnCount x) ++ p.columnsOf ids :=
  flatMap_cons

theorem columnsOf_concat (p : Plan) (ids : List NodeId) (x : NodeId) :
    p.columnsOf (ids ++ [x]) = p.columnsOf ids ++ ColumnRef.range x (p.columnCount x) := by
  rw [columnsOf, flatMap_append, flatMap_singleton]
  rfl

/-- Different nodes have different columns. -/
theorem nodup_columnsOf (h : ids.Nodup) : (p.columnsOf ids).Nodup := by
  refine nodup_flatMap.mpr ⟨fun x _ => ColumnRef.nodup_range _ _, h.imp fun hne => ?_⟩
  intro c hx hy
  exact hne ((ColumnRef.mem_range.mp hx).1.symm.trans (ColumnRef.mem_range.mp hy).1)

theorem idxOf_columnsOf_cons (hk : k < p.columnCount x) :
    (p.columnsOf (x :: ids)).idxOf ⟨x, k⟩ = k := by
  rw [columnsOf_cons, idxOf_append_of_mem (ColumnRef.mem_range.mpr ⟨rfl, hk⟩),
    ColumnRef.idxOf_range hk]

theorem idxOf_columnsOf_concat (hx : x ∉ ids) (hk : k < p.columnCount x) :
    (p.columnsOf (ids ++ [x])).idxOf ⟨x, k⟩ = (p.columnsOf ids).length + k := by
  rw [columnsOf_concat, idxOf_append_of_notMem fun h => hx (mem_columnsOf.mp h).1,
    ColumnRef.idxOf_range hk]

/-- The columns of other nodes of the same widths. -/
theorem columnsOf_map {f : NodeId → NodeId}
    (hcount : ∀ i ∈ ids, q.columnCount (f i) = p.columnCount i) :
    q.columnsOf (ids.map f) = (p.columnsOf ids).map fun c => ⟨f c.source, c.index⟩ := by
  rw [columnsOf, columnsOf, flatMap_map, map_flatMap]
  refine flatMap_congr fun i hi => ?_
  rw [hcount i hi, ColumnRef.range, ColumnRef.range, map_map]
  rfl

end Places

/-! ### Walks by layout -/

theorem widthWithin_own {width : Nat} {names : List String}
    (hid : (p.op id).layout = .own width names) (fuel : Nat) :
    p.widthWithin (fuel + 1) id = .ok width := by
  rw [widthWithin]
  cases hop : p.op id <;> rw [hop] at hid <;> cases hid <;> rfl

theorem widthWithin_first (hid : (p.op id).layout = .first) (fuel : Nat) :
    p.widthWithin (fuel + 1) id = (p.node id).input 0 >>= p.widthWithin fuel := by
  rw [widthWithin]
  cases hop : p.op id <;> rw [hop] at hid <;> cases hid

theorem widthWithin_all (hid : (p.op id).layout = .all) (fuel : Nat) :
    p.widthWithin (fuel + 1) id =
      (p.inputs id).mapM (p.widthWithin fuel) >>= fun ws => .ok ws.sum := by
  rw [widthWithin]
  cases hop : p.op id <;> rw [hop] at hid <;> cases hid <;> rfl

theorem input_zero {i : NodeId} {rest : List NodeId} (h : p.inputs id = i :: rest) :
    (p.node id).input 0 = .ok i := by
  unfold Node.input
  rw [show (p.node id).inputs = i :: rest from h]
  rfl

theorem output_of_join (hid : (p.op id).isJoin = true) :
    p.output id = (p.inputs id).mapM (fun i =>
      p.widthWithin p.arena.size i >>= fun w => .ok (ColumnRef.range i w)) >>=
        fun parts => .ok parts.flatten := by
  rw [output]
  cases hop : p.op id <;> rw [hop] at hid <;> cases hid <;> rfl

theorem output_of_not_join (hid : (p.op id).isJoin = false) :
    p.output id = p.width id >>= fun w => .ok (ColumnRef.range id w) := by
  rw [output]
  cases hop : p.op id <;> rw [hop] at hid <;> cases hid <;> rfl

end

/-- Nodes that show the columns of their first input have one. -/
def Fed (p : Plan) (l : List NodeId) : Prop :=
  ∀ id ∈ l, (p.op id).layout = .first → p.inputs id ≠ []

namespace Ordered

variable {p q : Plan} {l : List NodeId} {id : NodeId}

/-- The number of columns of an ordered node comes from those of its inputs. -/
theorem columnCount_eq (h : p.Ordered l) (hid : id ∈ l) :
    p.columnCount id = (p.op id).layout.width ((p.inputs id).map p.columnCount) :=
  h.fold_eq hid

/-- A node with columns of its own has as many as its operator says. -/
theorem columnCount_of_own (h : p.Ordered l) (hid : id ∈ l) {width : Nat} {names : List String}
    (hop : (p.op id).layout = .own width names) : p.columnCount id = width := by
  rw [h.columnCount_eq hid, hop]
  rfl

/-- The names of the columns of an ordered node come from those of its inputs. -/
theorem columnNames_eq (h : p.Ordered l) (hid : id ∈ l) :
    p.columnNames id = (p.op id).layout.columnNames ((p.inputs id).map p.columnNames) :=
  h.fold_eq hid

/-- A node with columns of its own has the names that its operator says. -/
theorem columnNames_of_own (h : p.Ordered l) (hid : id ∈ l) {width : Nat} {names : List String}
    (hop : (p.op id).layout = .own width names) : p.columnNames id = names := by
  rw [h.columnNames_eq hid, hop]
  rfl

/-- A node has as many names as columns. -/
theorem length_columnNames (h : p.Ordered l) (hfields : ∀ id ∈ l, (p.op id).FieldsMatch) :
    ∀ id ∈ l, (p.columnNames id).length = p.columnCount id := by
  refine h.induction fun id hid ih => ?_
  rw [h.columnNames_eq hid, h.columnCount_eq hid]
  cases hop : (p.op id).layout with
  | own width names => exact Operator.length_of_layout_own (hfields id hid) hop
  | first =>
      cases hinputs : p.inputs id with
      | nil => rfl
      | cons i rest => exact ih i (hinputs ▸ mem_cons_self)
  | all =>
      simp only [Layout.columnNames, Layout.width, length_flatten, map_map]
      exact congrArg sum (map_congr_left ih)

/-- A width that comes from the widths of the inputs is the number of columns. -/
theorem columnCount_unique (h : p.Ordered l) {g : NodeId → Nat}
    (hg : ∀ id ∈ l, g id = (p.op id).layout.width ((p.inputs id).map g)) :
    ∀ id ∈ l, p.columnCount id = g id :=
  h.fold_unique hg

theorem columnNames_unique (h : p.Ordered l) {g : NodeId → List String}
    (hg : ∀ id ∈ l, g id = (p.op id).layout.columnNames ((p.inputs id).map g)) :
    ∀ id ∈ l, p.columnNames id = g id :=
  h.fold_unique hg

/-- If two plans agree on layouts and inputs, their nodes are of one width. -/
theorem columnCount_congr (h : p.Ordered l) (hsize : p.arena.size ≤ q.arena.size)
    (hlayout : ∀ id ∈ l, (q.op id).layout = (p.op id).layout)
    (hinputs : ∀ id ∈ l, q.inputs id = p.inputs id) :
    ∀ id ∈ l, q.columnCount id = p.columnCount id :=
  h.fold_congr 0 (fun _ => Layout.width) hsize hlayout hinputs

/-- If two plans agree on layouts and inputs, the columns of their nodes have the same names. -/
theorem columnNames_congr (h : p.Ordered l) (hsize : p.arena.size ≤ q.arena.size)
    (hlayout : ∀ id ∈ l, (q.op id).layout = (p.op id).layout)
    (hinputs : ∀ id ∈ l, q.inputs id = p.inputs id) :
    ∀ id ∈ l, q.columnNames id = p.columnNames id :=
  h.fold_congr [] (fun _ => Layout.columnNames) hsize hlayout hinputs

/-- A walk finds the width of a node if shorter ones find those of its inputs. -/
theorem widthWithin_succ (h : p.Ordered l) (hfed : p.Fed l) (hid : id ∈ l) {fuel : Nat}
    (ih : ∀ i ∈ p.inputs id, p.widthWithin fuel i = .ok (p.columnCount i)) :
    p.widthWithin (fuel + 1) id = .ok (p.columnCount id) := by
  rw [h.columnCount_eq hid]
  cases hop : (p.op id).layout with
  | own width names => exact widthWithin_own hop fuel
  | first =>
      obtain ⟨i, rest, hi⟩ := exists_cons_of_ne_nil (hfed id hid hop)
      rw [widthWithin_first hop, Result.bind_ok (input_zero hi), ih i (hi ▸ mem_cons_self), hi]
      rfl
  | all =>
      rw [widthWithin_all hop, Result.bind_ok (Result.mapM_ok ih)]
      rfl

theorem widthWithin_eq (h : p.Ordered l) (hfed : p.Fed l) (hid : id ∈ l) {fuel : Nat}
    (hfuel : p.arena.size ≤ fuel) : p.widthWithin fuel id = .ok (p.columnCount id) :=
  h.fuel_induction (motive := fun fuel id => p.widthWithin fuel id = .ok (p.columnCount id))
    (fun _ hid _ ih => h.widthWithin_succ hfed hid ih) id hid fuel hfuel

/-- An ordered node that has its inputs has a width. -/
theorem width_eq (h : p.Ordered l) (hfed : p.Fed l) (hid : id ∈ l) :
    p.width id = .ok (p.columnCount id) :=
  h.widthWithin_eq hfed hid (Nat.le_succ _)

end Ordered

namespace Arranged

variable {p q : Plan} {l : List NodeId} {id : NodeId}

theorem fed (h : p.Arranged l) : p.Fed l := fun id hid hop => by
  obtain ⟨i, rest, hi⟩ := Operator.inputs_of_layout_first hop (h.arity id hid)
  exact hi ▸ cons_ne_nil i rest

/-- An arranged node has a width. -/
theorem width_eq (h : p.Arranged l) (hid : id ∈ l) : p.width id = .ok (p.columnCount id) :=
  h.toOrdered.width_eq h.fed hid

/-- An arranged node shows all columns of the nodes that it exposes. -/
theorem output_eq (h : p.Arranged l) (hid : id ∈ l) :
    p.output id = .ok (p.columnsOf (p.exposed id)) := by
  cases hop : (p.op id).isJoin with
  | false =>
      rw [output_of_not_join hop, Result.bind_ok (h.width_eq hid), exposed_of_not_join hop]
      simp [columnsOf]
  | true =>
      have hparts : (p.inputs id).mapM (fun i =>
          p.widthWithin p.arena.size i >>= fun w => .ok (ColumnRef.range i w)) =
          .ok ((p.inputs id).map fun i => ColumnRef.range i (p.columnCount i)) :=
        Result.mapM_ok fun i hi =>
          Result.bind_ok (h.widthWithin_eq h.fed (h.mem_of_input hid hi) (Nat.le_refl _))
      rw [output_of_join hop, Result.bind_ok hparts, exposed_of_join hop, columnsOf, flatMap_def]

theorem exposed_subset (h : p.Arranged l) (hid : id ∈ l) {x : NodeId} (hx : x ∈ p.exposed id) :
    x ∈ l := by
  cases hop : (p.op id).isJoin with
  | false =>
      rw [exposed_of_not_join hop, mem_singleton] at hx
      exact hx ▸ hid
  | true =>
      rw [exposed_of_join hop] at hx
      exact h.mem_of_input hid hx

/-- A node that exposes itself is no join. -/
theorem isJoin_of_mem_exposed_self (h : p.Arranged l) (hid : id ∈ l) (hx : id ∈ p.exposed id) :
    (p.op id).isJoin = false := by
  by_contra hop
  rw [exposed_of_join (by simpa using hop)] at hx
  exact h.not_mem_inputs_self hid hx

/-- The columns of a node that shows itself are as many as it exposes. -/
theorem columnCount_eq_sum_exposed (h : p.Arranged l) (hid : id ∈ l) :
    p.columnCount id = ((p.exposed id).map p.columnCount).sum := by
  cases hop : (p.op id).isJoin with
  | false => simp [exposed_of_not_join hop]
  | true =>
      rw [exposed_of_join hop, h.columnCount_eq hid, Operator.layout_eq_all_iff _ |>.mpr hop]
      rfl

end Arranged

end Plan

end QueryPlan
