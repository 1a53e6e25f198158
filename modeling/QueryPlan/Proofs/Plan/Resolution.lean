import QueryPlan.Proofs.Plan.Cycles
import QueryPlan.Proofs.Shape.Names
/-!
# QueryPlan.Proofs.Plan.Resolution

**Outputs are resolved up to real cycles.** A filter, sort, modification or union shows the columns of
its first input, a join those of all its inputs (`Plan.shownInputs`). The walks that find a width, a
name or the references of a node go along these inputs. They are cut off after as many nodes as the
arena has, and `resolution_exact` says that this meets nothing but cycles, on every plan.

Where a node has a width, its references and its names are as many, and a join shows its inputs one
behind the other.
-/

namespace QueryPlan

open List

namespace Plan

/-- The inputs whose columns a node shows in place of columns of its own. -/
def shownInputs (p : Plan) (id : NodeId) : List NodeId :=
  match p.op id with
  | .filter _ | .sort _ | .modify _ | .union _ => (p.inputs id).take 1
  | .join _ | .leftDeepJoin _ => p.inputs id
  | _ => []

/-- A node shows the columns of another one. -/
def Shows (p : Plan) (a b : NodeId) : Prop := b ∈ p.shownInputs a

/-- Every node has as many inputs as its operator takes, and the parallel lists of operators are of
one length. Nothing is said about where the inputs lead. -/
structure Regular (p : Plan) : Prop where
  arity : ∀ n ∈ p.arena, n.op.arity.admits n.inputs.length = true
  fieldsMatch : ∀ n ∈ p.arena, n.op.FieldsMatch

variable {p : Plan} {id i : NodeId} {fuel fuel' n column k : Nat}

theorem Regular.admits (h : p.Regular) (id : NodeId) :
    (p.op id).arity.admits (p.inputs id).length = true := by
  rw [op, inputs]
  rcases p.node_mem_or_default id with hmem | hdefault
  · exact h.arity _ hmem
  · rw [hdefault]
    rfl

theorem Regular.matches (h : p.Regular) (id : NodeId) : (p.op id).FieldsMatch := by
  rw [op]
  rcases p.node_mem_or_default id with hmem | hdefault
  · exact h.fieldsMatch _ hmem
  · rw [hdefault]
    trivial

/-! ### What a node shows, by layout -/

theorem shownInputs_of_own {width : Nat} {names : List String}
    (hid : (p.op id).layout = .own width names) : p.shownInputs id = [] := by
  unfold shownInputs
  cases hop : p.op id <;> rw [hop] at hid <;> cases hid

theorem shownInputs_of_first (hid : (p.op id).layout = .first) :
    p.shownInputs id = (p.inputs id).take 1 := by
  unfold shownInputs
  cases hop : p.op id <;> rw [hop] at hid <;> cases hid

theorem shownInputs_of_all (hid : (p.op id).layout = .all) : p.shownInputs id = p.inputs id := by
  unfold shownInputs
  cases hop : p.op id <;> rw [hop] at hid <;> cases hid

/-- A node that shows others is in the arena. -/
theorem Shows.lt_size {a b : NodeId} (h : p.Shows a b) : a.index < p.arena.size := by
  by_contra hout
  have hnode : p.node a = default := by
    unfold node
    rw [Array.getElem?_eq_none (Nat.le_of_not_lt hout)]
    rfl
  have hnone : p.shownInputs a = [] := by
    unfold shownInputs op
    rw [hnode]
    rfl
  unfold Shows at h
  rw [hnone] at h
  exact absurd h not_mem_nil

/-! ### Widths -/

/-- A walk finds a width exactly if shorter walks find those of the inputs that a node shows. -/
theorem Regular.exists_widthWithin_succ (h : p.Regular) : (∃ n, p.widthWithin (fuel + 1) id = .ok n) ↔
    ∀ i, p.Shows id i → ∃ n, p.widthWithin fuel i = .ok n := by
  unfold Shows
  cases hop : (p.op id).layout with
  | own width names =>
      rw [shownInputs_of_own hop]
      exact ⟨fun _ i hi => absurd hi not_mem_nil, fun _ => ⟨width, widthWithin_own hop fuel⟩⟩
  | first =>
      obtain ⟨i, rest, hi⟩ := Operator.inputs_of_layout_first hop (h.admits id)
      rw [shownInputs_of_first hop, widthWithin_first hop, Result.bind_ok (input_zero hi), hi]
      simp only [take_succ_cons, take_zero, mem_singleton, forall_eq]
  | all =>
      rw [shownInputs_of_all hop, widthWithin_all hop]
      constructor
      · rintro ⟨n, hn⟩ i hi
        obtain ⟨ws, hws, -⟩ := Result.bind_eq_ok.mp hn
        obtain ⟨w, -, hw⟩ := Result.mapM_mem_left hws hi
        exact ⟨w, hw⟩
      · intro hinputs
        obtain ⟨ws, hws⟩ := Result.exists_mapM hinputs
        exact ⟨_, Result.bind_ok hws⟩

/-- A walk finds a width exactly if it may be longer than every walk along the nodes that are
shown. -/
theorem Regular.exists_widthWithin_iff (h : p.Regular) : (∃ n, p.widthWithin fuel id = .ok n) ↔
    ∀ l, IsChain p.Shows (id :: l) → l.length < fuel := by
  induction fuel generalizing id with
  | zero =>
      constructor
      · rintro ⟨n, hn⟩
        exact absurd hn Result.fail_ne_ok
      · exact fun hshort => absurd (hshort [] (isChain_singleton id)) (Nat.not_lt_zero _)
  | succ fuel ih =>
      rw [h.exists_widthWithin_succ]
      constructor
      · -- The walk that does not leave the node is always short enough.
        rintro hinputs (_ | ⟨i, l⟩) hwalk
        · exact Nat.succ_pos fuel
        · obtain ⟨hshows, hwalk⟩ := isChain_cons_cons.mp hwalk
          exact Nat.succ_lt_succ (ih.mp (hinputs i hshows) l hwalk)
      · intro hshort i hshows
        refine ih.mpr fun l hwalk => Nat.lt_of_succ_lt_succ ?_
        exact hshort (i :: l) (isChain_cons_cons.mpr ⟨hshows, hwalk⟩)

/-- From a node that shows itself through others no walk finds a width. -/
theorem Regular.widthWithin_ne_ok (h : p.Regular) (hcycle : ReachesCycle p.Shows id) :
    p.widthWithin fuel id ≠ .ok n := by
  intro hn
  obtain ⟨l, hlength, hwalk⟩ := hcycle.exists_walk fuel
  exact Nat.lt_irrefl _ (hlength ▸ h.exists_widthWithin_iff.mp ⟨n, hn⟩ l hwalk)

/-- A node that is shown has a width, found in as many steps as the arena has nodes, unless it
reaches a cycle. -/
theorem Regular.exists_widthWithin_of_shown (h : p.Regular) (hshows : p.Shows id i)
    (hno : ¬ ReachesCycle p.Shows i) : ∃ n, p.widthWithin p.arena.size i = .ok n := by
  refine h.exists_widthWithin_iff.mpr fun l hwalk => ?_
  by_contra hlong
  exact hno (reachesCycle_of_walk (fun _ _ => Shows.lt_size)
    (isChain_cons_cons.mpr ⟨hshows, hwalk⟩) (Nat.le_of_not_lt hlong))

/-- Exactly the nodes that reach a cycle have no width. -/
theorem Regular.exists_width_iff (h : p.Regular) :
    (∃ n, p.width id = .ok n) ↔ ¬ ReachesCycle p.Shows id := by
  constructor
  · rintro ⟨n, hn⟩ hcycle
    exact h.widthWithin_ne_ok hcycle hn
  · intro hno
    exact h.exists_widthWithin_succ.mpr fun i hshows =>
      h.exists_widthWithin_of_shown hshows fun hcycle => hno (hcycle.head hshows)

/-- What a walk finds, longer walks find as well. -/
theorem widthWithin_mono (hn : p.widthWithin fuel id = .ok n) (hle : fuel ≤ fuel') :
    p.widthWithin fuel' id = .ok n := by
  induction fuel generalizing id n fuel' with
  | zero => exact absurd hn Result.fail_ne_ok
  | succ fuel ih =>
      obtain ⟨fuel', rfl⟩ : ∃ k, fuel' = k + 1 := ⟨fuel' - 1, by omega⟩
      have hle : fuel ≤ fuel' := Nat.le_of_succ_le_succ hle
      cases hop : (p.op id).layout with
      | own width names => rwa [widthWithin_own hop] at hn ⊢
      | first =>
          rw [widthWithin_first hop] at hn ⊢
          obtain ⟨i, hi, hn⟩ := Result.bind_eq_ok.mp hn
          exact Result.bind_eq_ok.mpr ⟨i, hi, ih hn hle⟩
      | all =>
          rw [widthWithin_all hop] at hn ⊢
          obtain ⟨ws, hws, hn⟩ := Result.bind_eq_ok.mp hn
          exact Result.bind_eq_ok.mpr ⟨ws, Result.mapM_mono (fun _ _ _ hw => ih hw hle) hws, hn⟩

/-- A node that is shown has the width that walks of so many steps find. -/
theorem Regular.widthWithin_of_shown (h : p.Regular) (hshows : p.Shows id i)
    (hwidth : p.width i = .ok n) : p.widthWithin p.arena.size i = .ok n := by
  obtain ⟨m, hm⟩ := h.exists_widthWithin_of_shown hshows (h.exists_width_iff.mp ⟨n, hwidth⟩)
  have hm' : p.width i = .ok m := widthWithin_mono hm (Nat.le_succ _)
  rw [hm, hm'.symm.trans hwidth]

/-! ### References -/

/-- The references to the columns of some nodes, from their widths. -/
theorem mapM_range (f : NodeId → Result Nat) (ids : List NodeId) :
    (ids.mapM fun i => f i >>= fun w => .ok (ColumnRef.range i w)) =
      ids.mapM f >>= fun ws => .ok (zipWith ColumnRef.range ids ws) := by
  induction ids with
  | nil => rfl
  | cons i ids ih =>
      rw [mapM_cons, mapM_cons, ih]
      cases f i with
      | error e => rfl
      | ok w => cases ids.mapM f <;> rfl

/-- The references to the columns of a join, from the widths of its inputs. -/
theorem output_of_widths (hjoin : (p.op id).isJoin = true) {ws : List Nat}
    (hws : (p.inputs id).mapM (p.widthWithin p.arena.size) = .ok ws) :
    p.output id = .ok (zipWith ColumnRef.range (p.inputs id) ws).flatten := by
  rw [output_of_join hjoin, mapM_range, hws]
  rfl

theorem length_flatten_range {ids : List NodeId} {ws : List Nat} (h : ids.length = ws.length) :
    (zipWith ColumnRef.range ids ws).flatten.length = ws.sum := by
  induction ids generalizing ws with
  | nil => rw [length_eq_zero_iff.mp h.symm]; rfl
  | cons i ids ih =>
      obtain ⟨w, ws, rfl⟩ := exists_cons_of_length_eq_add_one h.symm
      rw [zipWith_cons_cons, flatten_cons, length_append, ColumnRef.length_range,
        ih (Nat.succ.inj h), sum_cons]

/-- A join has a width exactly if its inputs have widths, and then their sum. -/
theorem width_eq_ok_iff_of_join (hjoin : (p.op id).isJoin = true) : p.width id = .ok n ↔
    ∃ ws, (p.inputs id).mapM (p.widthWithin p.arena.size) = .ok ws ∧ ws.sum = n := by
  rw [width, walkBound, widthWithin_all ((Operator.layout_eq_all_iff _).mpr hjoin),
    Result.bind_eq_ok]
  simp only [Except.ok.injEq]

/-- A node has references exactly if it has a width, and then as many. -/
theorem width_eq_ok_iff_output : p.width id = .ok n ↔
    ∃ columns, p.output id = .ok columns ∧ columns.length = n := by
  cases hjoin : (p.op id).isJoin with
  | false =>
      rw [output_of_not_join hjoin]
      constructor
      · exact fun hn => ⟨_, Result.bind_ok hn, ColumnRef.length_range _ _⟩
      · rintro ⟨columns, hcolumns, rfl⟩
        obtain ⟨w, hw, hcolumns⟩ := Result.bind_eq_ok.mp hcolumns
        cases hcolumns
        rw [hw, ColumnRef.length_range]
  | true =>
      rw [width_eq_ok_iff_of_join hjoin]
      constructor
      · rintro ⟨ws, hws, rfl⟩
        exact ⟨_, output_of_widths hjoin hws, length_flatten_range (Result.mapM_eq_ok.mp hws).length_eq⟩
      · rintro ⟨columns, hcolumns, rfl⟩
        have hparts := hcolumns
        rw [output_of_join hjoin, mapM_range] at hparts
        obtain ⟨parts, hparts, -⟩ := Result.bind_eq_ok.mp hparts
        obtain ⟨ws, hws, -⟩ := Result.bind_eq_ok.mp hparts
        rw [output_of_widths hjoin hws] at hcolumns
        cases hcolumns
        exact ⟨ws, hws, (length_flatten_range (Result.mapM_eq_ok.mp hws).length_eq).symm⟩

/-- The references to a node stand behind those to the nodes before it. -/
theorem getElem?_flatten_range {pre post : List NodeId} {ws ws' : List Nat} {w : Nat}
    (hlength : pre.length = ws.length) (hk : k < w) :
    (zipWith ColumnRef.range (pre ++ i :: post) (ws ++ w :: ws')).flatten[ws.sum + k]? =
      some ⟨i, k⟩ := by
  rw [zipWith_append hlength, zipWith_cons_cons, flatten_append, flatten_cons,
    ← length_flatten_range hlength, getElem?_append_right (Nat.le_add_right _ _),
    Nat.add_sub_cancel_left, getElem?_append_left (by rwa [ColumnRef.length_range])]
  exact ColumnRef.getElem?_range.mpr ⟨hk, rfl⟩

/-! ### Names -/

section Locate

variable {width : NodeId → Result Nat} {ids pre rest : List NodeId} {ws : List Nat} {w : Nat}

/-- Positions behind some inputs are looked up behind them. -/
theorem locate_append (hws : pre.mapM width = .ok ws) :
    locate width (pre ++ rest) (ws.sum + column) = locate width rest column := by
  induction pre generalizing ws with
  | nil =>
      obtain rfl := Result.pure_eq_ok.mp (mapM_nil.symm.trans hws)
      rw [nil_append, sum_nil, Nat.zero_add]
  | cons i pre ih =>
      obtain ⟨w, vs, hw, hvs, rfl⟩ := Result.mapM_cons_eq_ok.mp hws
      have hnot : ¬ (w :: vs).sum + column < w := by rw [sum_cons]; omega
      have hsub : (w :: vs).sum + column - w = vs.sum + column := by rw [sum_cons]; omega
      rw [cons_append, locate, Result.bind_ok hw, if_neg hnot, hsub, ih hvs]

theorem locate_cons (hw : width i = .ok w) (hk : k < w) :
    locate width (i :: rest) k = .ok (some (i, k)) := by
  rw [locate, Result.bind_ok hw, if_pos hk]
  rfl

theorem locate_mono {width' : NodeId → Result Nat} (h : ∀ i w, width i = .ok w → width' i = .ok w)
    {r : Option (NodeId × Nat)} (hr : locate width ids column = .ok r) :
    locate width' ids column = .ok r := by
  induction ids generalizing column with
  | nil => exact hr
  | cons i ids ih =>
      obtain ⟨w, hw, hr⟩ := Result.bind_eq_ok.mp hr
      refine Result.bind_eq_ok.mpr ⟨w, h i w hw, ?_⟩
      split at hr
      · next hlt => rwa [if_pos hlt]
      · next hge =>
        rw [if_neg hge]
        exact ih hr

/-- A position below the total width of some inputs lies in one of them. -/
theorem exists_part (hws : ids.mapM width = .ok ws) (hlt : column < ws.sum) :
    ∃ pre i post widths w k, ids = pre ++ i :: post ∧ pre.mapM width = .ok widths ∧
      width i = .ok w ∧ k < w ∧ column = widths.sum + k := by
  induction ids generalizing ws column with
  | nil =>
      obtain rfl := Result.pure_eq_ok.mp hws
      exact absurd hlt (Nat.not_lt_zero _)
  | cons i ids ih =>
      obtain ⟨w, vs, hw, hvs, rfl⟩ := Result.mapM_cons_eq_ok.mp hws
      rw [sum_cons] at hlt
      by_cases hk : column < w
      · exact ⟨[], i, ids, [], w, column, rfl, rfl, hw, hk, (Nat.zero_add _).symm⟩
      · have hltRest : column - w < vs.sum := by omega
        obtain ⟨pre, x, post, widths, v, k, rfl, hwidths, hv, hkv, hcolumn⟩ := ih hvs hltRest
        refine ⟨i :: pre, x, post, w :: widths, v, k, rfl, ?_, hv, hkv, ?_⟩
        · exact Result.mapM_cons_eq_ok.mpr ⟨w, widths, hw, hwidths, rfl⟩
        · rw [sum_cons]
          omega

end Locate

/-- A walk that finds the width of a node finds the names of as many columns. -/
theorem Regular.exists_fieldNameWithin_iff (h : p.Regular) (hn : p.widthWithin fuel id = .ok n) :
    (∃ name, p.fieldNameWithin fuel id column = .ok name) ↔ column < n := by
  induction fuel generalizing id n column with
  | zero => exact absurd hn Result.fail_ne_ok
  | succ fuel ih =>
      cases hop : (p.op id).layout with
      | own width names =>
          rw [widthWithin_own hop] at hn
          cases hn
          rw [fieldNameWithin_own hop, ← Operator.length_of_layout_own (h.matches id) hop]
          simp only [Result.ofOption_eq_ok]
          exact ⟨fun ⟨_, hname⟩ => (List.getElem?_eq_some_iff.mp hname).1,
            fun hlt => ⟨_, List.getElem?_eq_getElem hlt⟩⟩
      | first =>
          rw [widthWithin_first hop] at hn
          obtain ⟨i, hi, hn⟩ := Result.bind_eq_ok.mp hn
          rw [fieldNameWithin_first hop, Result.bind_ok hi]
          exact ih hn
      | all =>
          rw [widthWithin_all hop] at hn
          obtain ⟨ws, hws, hn⟩ := Result.bind_eq_ok.mp hn
          cases hn
          rw [fieldNameWithin_all hop]
          constructor
          · rintro ⟨name, hname⟩
            by_contra hge
            -- Behind all inputs there is nothing left to look at.
            obtain ⟨k, rfl⟩ := Nat.exists_eq_add_of_le (Nat.le_of_not_lt hge)
            rw [← append_nil (p.inputs id), locate_append hws] at hname
            exact absurd hname Result.fail_ne_ok
          · intro hlt
            obtain ⟨pre, i, post, widths, w, k, hinputs, hwidths, hw, hk, rfl⟩ := exists_part hws hlt
            rw [hinputs, locate_append hwidths, Result.bind_ok (locate_cons hw hk)]
            exact (ih hw).mpr hk

/-- What a walk finds as a name, longer walks find as well. -/
theorem fieldNameWithin_mono {name : String}
    (hname : p.fieldNameWithin fuel id column = .ok name) (hle : fuel ≤ fuel') :
    p.fieldNameWithin fuel' id column = .ok name := by
  induction fuel generalizing id column fuel' with
  | zero => exact absurd hname Result.fail_ne_ok
  | succ fuel ih =>
      obtain ⟨fuel', rfl⟩ : ∃ k, fuel' = k + 1 := ⟨fuel' - 1, by omega⟩
      have hle : fuel ≤ fuel' := Nat.le_of_succ_le_succ hle
      cases hop : (p.op id).layout with
      | own width names => rwa [fieldNameWithin_own hop] at hname ⊢
      | first =>
          rw [fieldNameWithin_first hop] at hname ⊢
          obtain ⟨i, hi, hname⟩ := Result.bind_eq_ok.mp hname
          exact Result.bind_eq_ok.mpr ⟨i, hi, ih hname hle⟩
      | all =>
          rw [fieldNameWithin_all hop] at hname ⊢
          obtain ⟨r, hr, hname⟩ := Result.bind_eq_ok.mp hname
          refine Result.bind_eq_ok.mpr ⟨r, locate_mono (fun _ _ hw => widthWithin_mono hw hle) hr, ?_⟩
          cases r with
          | none => exact absurd hname Result.fail_ne_ok
          | some part => exact ih hname hle

/-! ### Joins -/

section Joins

variable {pre post : List NodeId} {widths : List Nat} {w : Nat}

/-- The references to a column of a join and the name of the column are those of the input. -/
theorem Regular.column_of_join (h : p.Regular) (hjoin : (p.op id).isJoin = true)
    (hinputs : p.inputs id = pre ++ i :: post) (hwidths : pre.mapM p.width = .ok widths)
    (hw : p.width i = .ok w) (hk : k < w) :
    (∀ columns, p.output id = .ok columns → columns[widths.sum + k]? = some ⟨i, k⟩) ∧
      ∃ name, p.fieldName id (widths.sum + k) = .ok name ∧ p.fieldName i k = .ok name := by
  have hlayout : (p.op id).layout = .all := (Operator.layout_eq_all_iff _).mpr hjoin
  have hshows : ∀ x ∈ pre ++ i :: post, p.Shows id x := fun x hx => by
    rw [Shows, shownInputs_of_all hlayout, hinputs]
    exact hx
  -- The width of the join is found in walks one step shorter, so the inputs are measured by these.
  have hw := h.widthWithin_of_shown (hshows i (by simp)) hw
  have hwidths : pre.mapM (p.widthWithin p.arena.size) = .ok widths := Result.mapM_mono
    (fun x hx _ => h.widthWithin_of_shown (hshows x (mem_append_left _ hx))) hwidths
  constructor
  · intro columns hcolumns
    obtain ⟨ws, hws, -⟩ := (width_eq_ok_iff_of_join hjoin).mp
      (width_eq_ok_iff_output.mpr ⟨columns, hcolumns, rfl⟩)
    rw [output_of_widths hjoin hws] at hcolumns
    obtain rfl := Except.ok.inj hcolumns
    rw [hinputs, mapM_append, Result.bind_ok hwidths] at hws
    obtain ⟨rest, hrest, hws⟩ := Result.bind_eq_ok.mp hws
    obtain ⟨w', post', hw', -, rfl⟩ := Result.mapM_cons_eq_ok.mp hrest
    obtain rfl := Except.ok.inj (hw.symm.trans hw')
    obtain rfl := Result.pure_eq_ok.mp hws
    rw [hinputs]
    exact getElem?_flatten_range (Result.mapM_eq_ok.mp hwidths).length_eq hk
  · obtain ⟨name, hname⟩ := (h.exists_fieldNameWithin_iff hw).mpr hk
    refine ⟨name, ?_, fieldNameWithin_mono hname (Nat.le_succ _)⟩
    rw [fieldName, walkBound, fieldNameWithin_all hlayout, hinputs, locate_append hwidths,
      Result.bind_ok (locate_cons hw hk)]
    exact hname

end Joins

/-- **Outputs are resolved up to cycles.** On every plan, cyclic or not, whose nodes have the inputs
and lists that their operators ask for, a node has no width exactly if it reaches a cycle along the
inputs that nodes show. It has references exactly if it has a width, and then as many, and the
positions below the width are those with names. The columns of an input of a join stand behind those
of the inputs before it, under the handle and with the names of the input. -/
theorem resolution_exact (p : Plan) (h : p.Regular) (id : NodeId) :
    ((∃ e, p.width id = .error e) ↔ ReachesCycle p.Shows id) ∧
    (∀ n, p.width id = .ok n ↔ ∃ columns, p.output id = .ok columns ∧ columns.length = n) ∧
    (∀ n, p.width id = .ok n → ∀ i, (∃ name, p.fieldName id i = .ok name) ↔ i < n) ∧
    ((p.op id).isJoin = true → ∀ pre input post widths w, p.inputs id = pre ++ input :: post →
      pre.mapM p.width = .ok widths → p.width input = .ok w →
      ∀ i, widths.sum ≤ i → i < widths.sum + w →
        (∀ columns, p.output id = .ok columns → columns[i]? = some ⟨input, i - widths.sum⟩) ∧
        ∃ name, p.fieldName id i = .ok name ∧ p.fieldName input (i - widths.sum) = .ok name) := by
  refine ⟨?_, fun _ => width_eq_ok_iff_output, fun _ hn _ => h.exists_fieldNameWithin_iff hn, ?_⟩
  · rw [← not_iff_not, ← h.exists_width_iff]
    cases p.width id <;> simp
  · intro hjoin pre input post widths w hinputs hwidths hw i hle hlt
    obtain ⟨k, rfl⟩ := Nat.exists_eq_add_of_le hle
    rw [Nat.add_sub_cancel_left]
    exact h.column_of_join hjoin hinputs hwidths hw (Nat.lt_of_add_lt_add_left hlt)

/-- The join `n3` of two tables, joined once more with the filter `n2` that reads itself. -/
def joinedLoop : Plan :=
  { arena := #[.make 0 [] (.scan ⟨⟨1, "t", [], false⟩, ["x", "y"]⟩),
      .make 1 [] (.scan ⟨⟨2, "u", [], false⟩, ["z"]⟩), .make 2 [⟨2⟩] (.filter ⟨.bool true⟩),
      .make 3 [⟨0⟩, ⟨1⟩] (.join ⟨.bool true, .inner⟩),
      .make 4 [⟨3⟩, ⟨2⟩] (.join ⟨.bool true, .left⟩)]
    order := (range 5).map NodeId.mk }

/-- The inner join has its three columns. The outer one has no width, since its second input reads
itself, and still the names of the first input. -/
theorem resolution_exact_joinedLoop :
    joinedLoop.Regular ∧ ReachesCycle joinedLoop.Shows ⟨4⟩ ∧
      (∃ columns, joinedLoop.output ⟨3⟩ = .ok columns ∧ columns.length = 3 ∧
        columns[2]? = some ⟨⟨1⟩, 0⟩) ∧
      ∃ name, joinedLoop.fieldName ⟨4⟩ 2 = .ok name ∧ joinedLoop.fieldName ⟨3⟩ 2 = .ok name := by
  have hregular : joinedLoop.Regular := ⟨by decide, by decide⟩
  obtain ⟨hcycle, -, -, houter⟩ := resolution_exact joinedLoop hregular ⟨4⟩
  obtain ⟨-, hreferences, -, hinner⟩ := resolution_exact joinedLoop hregular ⟨3⟩
  obtain ⟨columns, hcolumns, hlength⟩ := (hreferences 3).mp rfl
  refine ⟨hregular, hcycle.mp ⟨_, rfl⟩, ⟨columns, hcolumns, hlength, ?_⟩, ?_⟩
  · exact (hinner rfl [⟨0⟩] ⟨1⟩ [] [2] 1 rfl rfl rfl 2 (by decide) (by decide)).1 columns hcolumns
  · exact (houter rfl [] ⟨3⟩ [⟨2⟩] [] 3 rfl rfl rfl 2 (by decide) (by decide)).2

end Plan

end QueryPlan
