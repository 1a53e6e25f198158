import QueryPlan.Proofs.Pruning.Visits
/-!
# QueryPlan.Proofs.Pruning.Kept

**A projection to the columns that are read.** A step of the pass narrows one projection
(`Plan.narrow`) and adapts what reads it. Between the two, a node is as wide as before unless it
carries the columns of the projection (`columnCount_narrow`), and every node that does is visited
(`Carries.mem_visits`).
-/

namespace QueryPlan

open List

/-- Positions of a list pick as many values as they are. -/
theorem length_filterMap_getElem? {α : Type} {as : List α} {kept : List Nat}
    (h : ∀ i ∈ kept, i < as.length) : (kept.filterMap fun i => as[i]?).length = kept.length := by
  induction kept with
  | nil => rfl
  | cons i rest ih =>
      rw [filterMap_cons, getElem?_eq_getElem (h i mem_cons_self), length_cons, length_cons,
        ih fun j hj => h j (mem_cons_of_mem _ hj)]

theorem mem_of_filterMap_getElem? {α : Type} {as : List α} {kept : List Nat} {a : α}
    (h : a ∈ kept.filterMap fun i => as[i]?) : a ∈ as := by
  obtain ⟨i, -, hi⟩ := mem_filterMap.mp h
  exact mem_of_getElem? hi

/-- All positions of a list pick the list. -/
theorem filterMap_getElem?_range {α : Type} (as : List α) :
    ((range as.length).filterMap fun i => as[i]?) = as := by
  induction as with
  | nil => rfl
  | cons a as ih =>
      rw [length_cons, range_succ_eq_map, filterMap_cons, filterMap_map]
      exact congrArg (a :: ·) ih

/-- The projection to some of its columns has parallel lists if it had them. -/
theorem Project.fieldsMatch_keep {j : Project} {kept : List Nat}
    (h : (Operator.project j).FieldsMatch) (hkept : ∀ i ∈ kept, i < j.exprs.length) :
    (Operator.project (j.keep kept)).FieldsMatch := by
  change (filterMap _ kept).length = (filterMap _ kept).length
  have hfields : j.fields.length = j.exprs.length := h
  rw [length_filterMap_getElem? hkept, length_filterMap_getElem? (hfields.symm ▸ hkept)]

namespace Plan

/-! ### The positions that are kept -/

section Positions

variable {width : Nat} {used : List Nat}

theorem keptColumns_eq (width : Nat) (used : List Nat) :
    keptColumns width used = (range width).filter used.contains ∨
      keptColumns width used = [0] := by
  unfold keptColumns
  split
  · exact .inr rfl
  · exact .inl rfl

theorem lt_of_mem_keptColumns (hwidth : 0 < width) {i : Nat} (hi : i ∈ keptColumns width used) :
    i < width := by
  rcases keptColumns_eq width used with h | h <;> rw [h] at hi
  · exact mem_range.mp (mem_filter.mp hi).1
  · exact mem_singleton.mp hi ▸ hwidth

/-- What is read is kept. -/
theorem mem_keptColumns {i : Nat} (hi : i < width) (hused : i ∈ used) :
    i ∈ keptColumns width used := by
  have hmem : i ∈ (range width).filter used.contains :=
    mem_filter.mpr ⟨mem_range.mpr hi, by simpa using hused⟩
  unfold keptColumns
  split
  · next h =>
    rw [h] at hmem
    exact absurd hmem not_mem_nil
  · exact hmem

end Positions

/-! ### The narrowed plan -/

/-- The plan with a projection to some of its columns. -/
def narrow (p : Plan) (id : NodeId) (j : Project) (kept : List Nat) : Plan :=
  p.setOp id (.project (j.keep kept))

variable {p q : Plan} {id x : NodeId} {root : Option NodeId} {j : Project} {used kept : List Nat}

section Narrow

@[simp] theorem order_narrow (p : Plan) (id : NodeId) (j : Project) (kept : List Nat) :
    (p.narrow id j kept).order = p.order := rfl

@[simp] theorem inputs_narrow (p : Plan) (id : NodeId) (j : Project) (kept : List Nat)
    (x : NodeId) : (p.narrow id j kept).inputs x = p.inputs x := by
  simp [narrow]

theorem op_narrow_of_ne (hx : x ≠ id) : (p.narrow id j kept).op x = p.op x := by
  rw [narrow, op, node_setOp_of_ne _ hx]
  rfl

@[simp] theorem consumers_narrow (p : Plan) (id : NodeId) (j : Project) (kept : List Nat)
    (x : NodeId) : (p.narrow id j kept).consumers x = p.consumers x := by
  simp [consumers]

variable (hid : id.index < p.arena.size) (hop : p.op id = .project j)
include hid

theorem op_narrow_self : (p.narrow id j kept).op id = .project (j.keep kept) :=
  op_setOp_self _ hid

include hop

theorem arity_narrow (x : NodeId) : ((p.narrow id j kept).op x).arity = (p.op x).arity := by
  by_cases hx : x = id
  · rw [hx, op_narrow_self hid, hop]
    rfl
  · rw [op_narrow_of_ne hx]

theorem isJoin_narrow (x : NodeId) : ((p.narrow id j kept).op x).isJoin = (p.op x).isJoin := by
  by_cases hx : x = id
  · rw [hx, op_narrow_self hid, hop]
    rfl
  · rw [op_narrow_of_ne hx]

theorem carries_narrow (x : NodeId) :
    ((p.narrow id j kept).op x).carries = (p.op x).carries := by
  by_cases hx : x = id
  · rw [hx, op_narrow_self hid, hop]
    rfl
  · rw [op_narrow_of_ne hx]

theorem arranged_narrow {l : List NodeId} (h : p.Arranged l) : (p.narrow id j kept).Arranged l :=
  h.congr (by simp [narrow]) (fun x _ => arity_narrow hid hop x) fun x _ => by simp

theorem exposed_narrow (x : NodeId) : (p.narrow id j kept).exposed x = p.exposed x := by
  rw [exposed, exposed, isJoin_narrow hid hop, inputs_narrow]

theorem reads_narrow (x : NodeId) : (p.narrow id j kept).reads x = p.reads x := by
  rw [reads, reads, isJoin_narrow hid hop, inputs_narrow, funext (exposed_narrow hid hop)]

theorem Carries.narrow {y : NodeId} (h : p.Carries y x) : (p.narrow id j kept).Carries y x := by
  induction h with
  | refl y => exact .refl y
  | up hn hcarries _ ih =>
      exact .up (by rwa [consumers_narrow]) (by rwa [carries_narrow hid hop]) ih

theorem Carries.of_narrow {y : NodeId} (h : (p.narrow id j kept).Carries y x) :
    p.Carries y x := by
  induction h with
  | refl y => exact .refl y
  | up hn hcarries _ ih =>
      exact .up (by rwa [consumers_narrow] at hn) (by rwa [carries_narrow hid hop] at hcarries) ih

end Narrow

/-! ### One step -/

/-- A step changes nothing, or it narrows a projection and visits what carries its columns. -/
theorem dropDeadColumns_cases (h : p.Arranged p.order) (hid : id ∈ p.order)
    (hq : dropDeadColumns root p id = .ok q) :
    q = p ∨ ∃ j used kept visits, p.op id = .project j ∧ 0 < j.exprs.length ∧
      p.usage root id = .ok (some used) ∧ kept = keptColumns j.exprs.length used ∧
      (p.narrow id j kept).visitsWithin ((p.narrow id j kept).walkBound + 1) id
        (ColumnMap.ofKept kept) j.exprs.length = .ok visits ∧
      visits.foldlM remapAt (p.narrow id j kept) = .ok q ∧
      SameSkeleton (p.narrow id j kept) q := by
  unfold dropDeadColumns at hq
  cases hop : p.op id with
  | project j =>
      rw [hop] at hq
      dsimp only at hq
      split at hq
      · exact .inl (Except.ok.inj hq).symm
      · next hcond =>
        obtain ⟨o, husage, hq⟩ := Result.bind_eq_ok.mp hq
        cases o with
        | none => exact .inl (Result.pure_eq_ok.mp hq).symm
        | some used =>
            dsimp only at hq
            split at hq
            · exact .inl (Result.pure_eq_ok.mp hq).symm
            · have hnarrow : (p.narrow id j (keptColumns j.exprs.length used)).Arranged p.order :=
                arranged_narrow (h.inArena id hid) hop h
              obtain ⟨visits, hvisits, hremap⟩ :=
                hnarrow.remapColumns_eq hid (ColumnMap.ofKept _) j.exprs.length
              have hfold := hremap.symm.trans hq
              have hwidth : 0 < j.exprs.length := by
                rw [Bool.or_eq_true, not_or, beq_iff_eq] at hcond
                exact Nat.pos_of_ne_zero hcond.2
              exact .inr ⟨j, used, _, visits, rfl, hwidth, husage, rfl, hvisits, hfold,
                foldlM_remapAt_sameSkeleton hnarrow (.refl _)
                  (fun v hv => (carries_of_mem_visits hvisits v hv).mem_order hid) hfold⟩
  | _ =>
      rw [hop] at hq
      exact .inl (Except.ok.inj hq).symm

/-- What shows the columns of a node that carries others carries them as well, if the columns that
are read are known. -/
theorem Carries.of_input (husage : p.usage root id = .ok (some used)) {i : NodeId}
    (hi : p.Carries id i) (hx : x ∈ p.order) (hread : i ∈ p.inputs x)
    (hown : ∀ width names, (p.op x).layout ≠ .own width names) : p.Carries id x := by
  obtain ⟨k, u, hu⟩ := hi.of_usage husage
  obtain ⟨k, rfl, hknown⟩ := usageWithin_eq_some hu
  have hconsumer := mem_consumers.mpr ⟨hx, hread⟩
  rcases (hknown.reader x hconsumer).carries_or_own with ⟨hcarries, -⟩ | ⟨width, names, hlayout⟩
  · exact hi.step hconsumer hcarries
  · exact absurd hlayout (hown width names)

/-- What comes from layouts is as before for a node that does not carry the columns of the
projection. -/
theorem fold_narrow {α : Type} (leaf : α) (value : Layout → List α → α)
    (h : p.Arranged p.order) (hid : id ∈ p.order) (hop : p.op id = .project j)
    (husage : p.usage root id = .ok (some used))
    (hown : ∀ width names as bs, value (.own width names) as = value (.own width names) bs) :
    ∀ x ∈ p.order, ¬p.Carries id x →
      (p.narrow id j kept).fold leaf (fun n => value ((p.narrow id j kept).op n).layout) x =
        p.fold leaf (fun n => value (p.op n).layout) x := by
  have hne : ∀ x, ¬p.Carries id x → x ≠ id := fun x hcarries heq => hcarries (heq ▸ .refl x)
  have hnarrow : (p.narrow id j kept).Arranged p.order := arranged_narrow (h.inArena id hid) hop h
  refine h.fold_congr_on leaf value hnarrow.toOrdered hown
    (fun x _ hcarries => by rw [op_narrow_of_ne (hne x hcarries)]) fun x hx hcarries hlayout => ?_
  exact ⟨inputs_narrow .., fun i hi hinput => hcarries (hinput.of_input husage hx hi hlayout)⟩

/-- A node is as wide as before if it does not carry the columns of the projection. -/
theorem columnCount_narrow (h : p.Arranged p.order) (hid : id ∈ p.order)
    (hop : p.op id = .project j) (husage : p.usage root id = .ok (some used)) :
    ∀ x ∈ p.order, ¬p.Carries id x →
      (p.narrow id j kept).columnCount x = p.columnCount x :=
  fold_narrow 0 Layout.width h hid hop husage fun _ _ _ _ => rfl

theorem columnNames_narrow (h : p.Arranged p.order) (hid : id ∈ p.order)
    (hop : p.op id = .project j) (husage : p.usage root id = .ok (some used)) :
    ∀ x ∈ p.order, ¬p.Carries id x →
      (p.narrow id j kept).columnNames x = p.columnNames x :=
  fold_narrow [] Layout.columnNames h hid hop husage fun _ _ _ _ => rfl

end Plan

end QueryPlan
