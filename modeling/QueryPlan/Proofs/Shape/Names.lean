import QueryPlan.Proofs.Plan.Redirection
/-!
# QueryPlan.Proofs.Shape.Names

**The names of the columns of a node.** A node without columns of its own shows those of other
nodes (`Plan.shown`), and the walk of `Plan.fieldName` finds the name of every column below the
width of a node (`Ordered.fieldName_eq`).
-/

namespace QueryPlan

open List

/-- The nodes of which a node shows columns, from those of which its inputs do. -/
def Layout.shown : Layout → List (List NodeId) → List NodeId
  | own _ _, _ => []
  | first, ids => ids.headD []
  | all, ids => ids.flatten

namespace Plan

/-- The nodes of which a node shows columns: the node itself, and those that it passes on. -/
def shown (p : Plan) : NodeId → List NodeId :=
  p.fold [] fun id ids => id :: (p.op id).layout.shown ids

/-- The names of the columns of the root. -/
def rootNames (p : Plan) : Option (List String) := p.root?.map p.columnNames

variable {p q : Plan} {l : List NodeId} {id x : NodeId}

/-! ### Walks by layout -/

theorem fieldNameWithin_own {width : Nat} {names : List String}
    (hid : (p.op id).layout = .own width names) (fuel column : Nat) :
    p.fieldNameWithin (fuel + 1) id column =
      .ofOption (.columnOutOfRange column (p.op id).name) names[column]? := by
  rw [fieldNameWithin]
  cases hop : p.op id <;> rw [hop] at hid <;> cases hid <;> rfl

theorem fieldNameWithin_first (hid : (p.op id).layout = .first) (fuel column : Nat) :
    p.fieldNameWithin (fuel + 1) id column =
      (p.node id).input 0 >>= fun i => p.fieldNameWithin fuel i column := by
  rw [fieldNameWithin]
  cases hop : p.op id <;> rw [hop] at hid <;> cases hid

theorem fieldNameWithin_all (hid : (p.op id).layout = .all) (fuel column : Nat) :
    p.fieldNameWithin (fuel + 1) id column =
      locate (p.widthWithin fuel) (p.inputs id) column >>= fun
        | some (i, k) => p.fieldNameWithin fuel i k
        | none => .fail (.columnOutOfRange column (p.op id).name) := by
  rw [fieldNameWithin]
  cases hop : p.op id with
  | join j => rfl
  | leftDeepJoin j => rfl
  | _ => rw [hop] at hid; cases hid

/-- A position in the columns of several inputs lies in one of them. -/
theorem locate_ok {width : NodeId → Result Nat} {names : NodeId → List String} {ids : List NodeId}
    (hwidth : ∀ i ∈ ids, width i = .ok (names i).length) {column : Nat} {name : String}
    (hname : (ids.map names).flatten[column]? = some name) :
    ∃ i ∈ ids, ∃ k, locate width ids column = .ok (some (i, k)) ∧ (names i)[k]? = some name := by
  induction ids generalizing column with
  | nil => simp at hname
  | cons i rest ih =>
      rw [map_cons, flatten_cons] at hname
      rw [locate, Result.bind_ok (hwidth i mem_cons_self)]
      by_cases hlt : column < (names i).length
      · rw [getElem?_append_left hlt] at hname
        exact ⟨i, mem_cons_self, column, if_pos hlt, hname⟩
      · rw [getElem?_append_right (Nat.le_of_not_lt hlt)] at hname
        obtain ⟨x, hx, k, hk, hname⟩ := ih (fun i hi => hwidth i (mem_cons_of_mem _ hi)) hname
        exact ⟨x, mem_cons_of_mem _ hx, k, (if_neg hlt).trans hk, hname⟩

namespace Ordered

/-- Every column below the width of a node has a name. -/
theorem fieldName_eq (h : p.Ordered l) (hfed : p.Fed l)
    (hfields : ∀ id ∈ l, (p.op id).FieldsMatch) (hid : id ∈ l) {column : Nat} {name : String}
    (hname : (p.columnNames id)[column]? = some name) : p.fieldName id column = .ok name := by
  have hlength := h.length_columnNames hfields
  refine (h.fuel_induction (motive := fun fuel id => p.widthWithin fuel id = .ok (p.columnCount id) ∧
    ∀ (column : Nat) name, (p.columnNames id)[column]? = some name →
      p.fieldNameWithin fuel id column = .ok name) ?_ id hid p.walkBound (Nat.le_succ _)).2
    column name hname
  intro id hid fuel ih
  refine ⟨h.widthWithin_succ hfed hid fun i hi => (ih i hi).1, fun column name hname => ?_⟩
  rw [h.columnNames_eq hid] at hname
  cases hop : (p.op id).layout with
  | own width names =>
      rw [hop] at hname
      rw [fieldNameWithin_own hop, Result.ofOption_eq_ok]
      exact hname
  | first =>
      obtain ⟨i, rest, hi⟩ := exists_cons_of_ne_nil (hfed id hid hop)
      rw [hop, hi] at hname
      rw [fieldNameWithin_first hop, Result.bind_ok (input_zero hi)]
      exact (ih i (hi ▸ mem_cons_self)).2 column name hname
  | all =>
      rw [hop] at hname
      obtain ⟨i, hi, k, hk, hname⟩ := locate_ok (fun i hi =>
        ((ih i hi).1.trans (congrArg _ (hlength i (h.mem_of_input hid hi)).symm))) hname
      rw [fieldNameWithin_all hop, Result.bind_ok hk]
      exact (ih i hi).2 k name hname

/-- A node shows itself and what the inputs show that it passes on. -/
theorem shown_eq (h : p.Ordered l) (hid : id ∈ l) :
    p.shown id = id :: (p.op id).layout.shown ((p.inputs id).map p.shown) :=
  h.fold_eq hid

theorem mem_shown_self (h : p.Ordered l) (hid : id ∈ l) : id ∈ p.shown id := by
  rw [h.shown_eq hid]
  exact mem_cons_self

/-- A node that passes on the columns of its first input shows what that shows. -/
theorem shown_of_first (h : p.Ordered l) (hid : id ∈ l) (hop : (p.op id).layout = .first)
    {i : NodeId} {rest : List NodeId} (hi : p.inputs id = i :: rest) :
    p.shown id = id :: p.shown i := by
  rw [h.shown_eq hid, hop, hi]
  rfl

/-- A node that passes on the columns of all inputs shows what these show. -/
theorem shown_of_all (h : p.Ordered l) (hid : id ∈ l) (hop : (p.op id).layout = .all) {i : NodeId}
    (hi : i ∈ p.inputs id) : p.shown i ⊆ p.shown id := by
  intro x hx
  rw [h.shown_eq hid, hop]
  exact mem_cons_of_mem _ (mem_flatten.mpr ⟨_, mem_map_of_mem hi, hx⟩)

end Ordered

theorem SameShape.shown_eq (h : SameShape p q) : q.shown = p.shown :=
  h.fold_eq [] fun id layout ids => id :: layout.shown ids

theorem Ordered.shown_alloc (h : p.Ordered l) (n : Node) :
    ∀ x ∈ l, (p.alloc n).shown x = p.shown x :=
  h.fold_alloc [] (fun id layout ids => id :: layout.shown ids) n

/-- A redirection keeps the names of a node, unless it shows columns of the old node and the new
one has other names. -/
theorem Rewired.columnNames_eq {old new : NodeId} {mapping : Option ColumnMap}
    {changed : List NodeId} (hr : Rewired p q old new mapping changed) (hp : p.Ordered l)
    (hq : q.Ordered l) : ∀ x ∈ l, (old ∈ p.shown x → p.columnNames new = p.columnNames old) →
      q.columnNames x = p.columnNames x := by
  refine hq.induction fun x hx ih hshown => ?_
  -- What stands in the place of an input has its names.
  have hinput : ∀ i ∈ p.inputs x, p.shown i ⊆ p.shown x →
      q.columnNames (if x ∈ changed then old.replaced new i else i) = p.columnNames i := by
    intro i hi hsub
    have hqi : (if x ∈ changed then old.replaced new i else i) ∈ q.inputs x := by
      split
      · next hchanged =>
        rw [hr.inputs_eq hchanged]
        exact mem_map_of_mem hi
      · next hchanged => rwa [hr.inputs_other hchanged]
    by_cases hnew : (if x ∈ changed then old.replaced new i else i) = i
    · rw [hnew] at hqi ⊢
      exact ih i hqi fun hold => hshown (hsub hold)
    · have hold : i = old ∧ (if x ∈ changed then old.replaced new i else i) = new := by
        unfold NodeId.replaced at hnew ⊢
        grind
      obtain ⟨rfl, hold⟩ := hold
      have hnames := hshown (hsub (hp.mem_shown_self (hp.mem_of_input hx hi)))
      rw [hold] at hqi ⊢
      rw [ih new hqi fun _ => hnames, hnames]
  have hinputs : q.inputs x =
      (p.inputs x).map fun i => if x ∈ changed then old.replaced new i else i := by
    split
    · next hchanged => exact hr.inputs_eq hchanged
    · next hchanged => rw [hr.inputs_other hchanged, map_id']
  rw [hq.columnNames_eq hx, hp.columnNames_eq hx, hr.op_layout, hinputs, map_map]
  cases hop : (p.op x).layout with
  | own width names => rfl
  | first =>
      cases hi : p.inputs x with
      | nil => rfl
      | cons i rest =>
          refine hinput i (hi ▸ mem_cons_self) ?_
          rw [hp.shown_of_first hx hop hi]
          exact subset_cons_self _ _
  | all =>
      refine congrArg flatten (map_congr_left fun i hi => ?_)
      exact hinput i hi (hp.shown_of_all hx hop hi)

end Plan

end QueryPlan
