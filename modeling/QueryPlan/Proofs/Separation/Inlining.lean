import QueryPlan.Proofs.Expr.WindowSplit
/-!
# QueryPlan.Proofs.Separation.Inlining

**Inlining puts a projection together again.** The upper half of a projection that is taken apart
refers to the lower one: at the place of a window function that was cut out, at the place of an
expression that stays below, and behind these at the columns that are forwarded. With the
expressions of the lower half in place of these references (`Expr.inline`) the upper half computes
what the projection did, expression by expression (`inline_splitUpper`).

Columns are forwarded one expression after another, each column once. So what an expression of the
upper half refers to is found in every list that continues the list of columns forwarded up to then.
-/

namespace QueryPlan

open List

namespace Expr

/-- What stands for a leaf if a node is inlined: for a column of the node its expression. -/
def inlineLeaf (id : NodeId) (exprs : List Expr) : Leaf → Expr
  | .column c => if c.source = id then (exprs[c.index]?).getD (.column c) else .column c
  | l => .leaf l

/-- The expression with the expressions of a node in place of its columns. -/
def inline (id : NodeId) (exprs : List Expr) : Expr → Expr := mapLeaves (inlineLeaf id exprs)

variable {id : NodeId} {exprs : List Expr} {c : ColumnRef} {e : Expr}

theorem inline_app (id : NodeId) (exprs : List Expr) (head : Head) (args : List Expr) :
    (app head args).inline id exprs = .app head (args.map (inline id exprs)) :=
  mapLeaves_app _ head args

theorem inline_column (hc : c.source = id) (he : exprs[c.index]? = some e) :
    (column c).inline id exprs = e := by
  rw [inline, mapLeaves, inlineLeaf, if_pos hc, he]
  rfl

theorem inline_column_of_ne (hc : c.source ≠ id) : (column c).inline id exprs = .column c :=
  if_neg hc

/-- Nothing is inlined into an expression that does not refer to the node. -/
theorem inline_eq_self (he : ∀ c ∈ e.columns, c.source ≠ id) : e.inline id exprs = e := by
  induction e using ind with
  | leaf l =>
      cases l with
      | column c => exact inline_column_of_ne (he c (mem_singleton_self c))
      | _ => rfl
  | app head args ih =>
      rw [inline_app]
      congr 1
      exact (map_congr_left fun e hmem =>
        ih e hmem fun c hc => he c (mem_columns_app.mpr ⟨e, hmem, hc⟩)).trans (map_id' _)

/-- Other columns go away again if for each of them the node computes the old one. -/
theorem inline_mapColumns {φ : ColumnRef → ColumnRef}
    (h : ∀ c ∈ e.columns, (column (φ c)).inline id exprs = .column c) :
    (e.mapColumns φ).inline id exprs = e := by
  induction e using ind with
  | leaf l =>
      cases l with
      | column c => exact h c (mem_singleton_self c)
      | _ => rfl
  | app head args ih =>
      rw [mapColumns_app, inline_app, map_map]
      congr 1
      exact (map_congr_left fun e hmem =>
        ih e hmem fun c hc => h c (mem_columns_app.mpr ⟨e, hmem, hc⟩)).trans (map_id' _)

/-- Where a window function is cut out of a list: it is an expression of the list, or the first one
inside of an expression, and no expression in front of that one has any. -/
theorem takeWindowAll?_eq_some {es es' : List Expr} {hole window : Expr}
    (h : takeWindowAll? es hole = some (window, es')) :
    ∃ front e e' back, es = front ++ e :: back ∧ es' = front ++ e' :: back ∧
      (∀ a ∈ front, a.isWindow = false ∧ a.takeWindow? hole = none) ∧
      (e.isWindow = true ∧ window = e ∧ e' = hole ∨
        e.isWindow = false ∧ e.takeWindow? hole = some (window, e')) := by
  induction es generalizing es' with
  | nil => rw [takeWindowAll?] at h; cases h
  | cons a as ih =>
      rw [takeWindowAll?] at h
      split at h
      · next hwindow =>
        cases h
        exact ⟨[], _, _, _, rfl, rfl, forall_mem_nil _, .inl ⟨hwindow, rfl, rfl⟩⟩
      · next hwindow =>
        split at h
        · next htake =>
          cases h
          exact ⟨[], _, _, _, rfl, rfl, forall_mem_nil _, .inr ⟨by simpa using hwindow, htake⟩⟩
        · next hnone =>
          obtain ⟨⟨window', as'⟩, has, ⟨⟩⟩ := Option.map_eq_some_iff.mp h
          obtain ⟨front, e, e', back, rfl, rfl, hfront, he⟩ := ih has
          refine ⟨a :: front, e, e', back, rfl, rfl, fun b hb => ?_, he⟩
          rcases mem_cons.mp hb with rfl | hb
          · exact ⟨by simpa using hwindow, hnone⟩
          · exact hfront b hb

/-- A window function is cut out of an argument. -/
theorem takeWindow?_eq_some {hole window rest : Expr}
    (h : e.takeWindow? hole = some (window, rest)) :
    ∃ head front a a' back, e = .app head (front ++ a :: back) ∧
      rest = .app head (front ++ a' :: back) ∧
      (∀ b ∈ front, b.isWindow = false ∧ b.takeWindow? hole = none) ∧
      (a.isWindow = true ∧ window = a ∧ a' = hole ∨
        a.isWindow = false ∧ a.takeWindow? hole = some (window, a')) := by
  cases e with
  | leaf l => rw [takeWindow?] at h; cases h
  | app head args =>
      rw [takeWindow?, Option.map_eq_some_iff] at h
      obtain ⟨⟨window', args'⟩, hargs, ⟨⟩⟩ := h
      obtain ⟨front, a, a', back, rfl, rfl, hcut⟩ := takeWindowAll?_eq_some hargs
      exact ⟨head, front, a, a', back, rfl, rfl, hcut⟩

/-- A window function goes back to where it was cut out. -/
theorem inline_takeWindow? {hole window rest : Expr} (h : e.takeWindow? hole = some (window, rest))
    (hhole : hole.inline id exprs = window) (he : ∀ c ∈ e.columns, c.source ≠ id) :
    rest.inline id exprs = e := by
  induction e using ind generalizing rest with
  | leaf l => rw [takeWindow?] at h; cases h
  | app head args ih =>
      obtain ⟨_, front, a, a', back, ⟨rfl, rfl⟩, rfl, -, hcut⟩ := takeWindow?_eq_some h
      have hargs : ∀ b ∈ front ++ a :: back, ∀ c ∈ b.columns, c.source ≠ id := fun b hb c hc =>
        he c (mem_columns_app.mpr ⟨b, hb, hc⟩)
      have hsame : ∀ {bs : List Expr}, bs ⊆ front ++ a :: back →
          bs.map (inline id exprs) = bs := fun hbs =>
        (map_congr_left fun b hb => inline_eq_self (hargs b (hbs hb))).trans (map_id' _)
      have ha : a'.inline id exprs = a := by
        rcases hcut with ⟨-, rfl, rfl⟩ | ⟨-, htake⟩
        · exact hhole
        · exact ih a (by simp) htake (hargs a (by simp))
      rw [inline_app, map_append, map_cons, ha, hsame (by simp), hsame (by simp)]

end Expr

/-! ### Expressions taken apart -/

/-- An expression of a projection taken apart: what stands in its place in the lower half, and what
the upper half computes from it. -/
def splitExpr (id : NodeId) (place : Nat) (e : Expr) : Expr × Expr :=
  if e.isWindow then (e, .column ⟨id, place⟩)
  else (e.takeWindow? (.column ⟨id, place⟩)).getD (e, .column ⟨id, place⟩)

theorem splitWindows_eq (id : NodeId) (es : List Expr) (i : Nat) :
    (splitWindows id es i).lower = es.mapIdx (fun k e => (splitExpr id (i + k) e).1) ∧
      (splitWindows id es i).upper = es.mapIdx fun k e => (splitExpr id (i + k) e).2 := by
  induction es generalizing i with
  | nil => exact ⟨rfl, rfl⟩
  | cons e es ih =>
      have hnext : (fun k => splitExpr id (i + (k + 1))) = fun k => splitExpr id (i + 1 + k) :=
        funext fun k => by rw [Nat.add_right_comm, Nat.add_assoc]
      have hshift := congrFun₂ hnext
      obtain ⟨hlower, hupper⟩ := ih (i + 1)
      rw [mapIdx_cons, mapIdx_cons, Nat.add_zero, funext₂ fun k e => congrArg Prod.fst (hshift k e),
        funext₂ fun k e => congrArg Prod.snd (hshift k e), ← hlower, ← hupper, splitWindows,
        splitExpr]
      split
      · exact ⟨rfl, rfl⟩
      · split
        · next htake => rw [htake]; exact ⟨rfl, rfl⟩
        · next htake => rw [htake]; exact ⟨rfl, rfl⟩

variable {id : NodeId} {exprs : List Expr}

/-- The two parts of an expression make the expression. -/
theorem inline_splitExpr {place : Nat} {e : Expr}
    (hlower : exprs[place]? = some (splitExpr id place e).1)
    (he : ∀ c ∈ e.columns, c.source ≠ id) : (splitExpr id place e).2.inline id exprs = e := by
  unfold splitExpr at hlower ⊢
  split at hlower
  · next hwindow =>
    rw [if_pos hwindow]
    exact Expr.inline_column rfl hlower
  · next hwindow =>
    rw [if_neg hwindow]
    cases htake : e.takeWindow? (.column ⟨id, place⟩) with
    | none =>
        rw [htake] at hlower
        exact Expr.inline_column rfl hlower
    | some parts =>
        rw [htake] at hlower
        exact Expr.inline_takeWindow? htake (Expr.inline_column rfl hlower) he

/-! ### Forwarded columns -/

/-- A computation that forwards columns, and what holds of its outcome from then on, whatever is
forwarded later. -/
def Settles {β : Type} (P : List ColumnRef → β → Prop) (m : StateM (List ColumnRef) β) : Prop :=
  ∀ s, s <+: (m.run s).2 ∧ ∀ final, (m.run s).2 <+: final → P final (m.run s).1

namespace Settles

variable {β γ : Type} {P : List ColumnRef → β → Prop} {Q : List ColumnRef → γ → Prop}
  {m : StateM (List ColumnRef) β}

theorem pure {b : β} (h : ∀ final, P final b) : Settles P (Pure.pure b) := fun s =>
  ⟨prefix_refl s, fun final _ => h final⟩

theorem bind {f : β → StateM (List ColumnRef) γ} (hm : Settles P m)
    (hf : ∀ b, Settles (fun final c => P final b → Q final c) (f b)) : Settles Q (m >>= f) := by
  intro s
  obtain ⟨hfirst, hsettled⟩ := hm s
  obtain ⟨hsecond, hrest⟩ := hf (m.run s).1 (m.run s).2
  exact ⟨hfirst.trans hsecond, fun final hfinal =>
    hrest final hfinal (hsettled final (hsecond.trans hfinal))⟩

end Settles

/-- The lower half: some expressions, and the forwarded columns behind them. -/
def withForwarded (base : List Expr) (forwarded : List ColumnRef) : List Expr :=
  base ++ forwarded.map Expr.column

variable {base : List Expr}

/-- At the place of a forwarded column stands the column. -/
theorem inline_forwarded {forwarded : List ColumnRef} {k : Nat} {c : ColumnRef}
    (hk : forwarded[k]? = some c) :
    (Expr.column ⟨id, base.length + k⟩).inline id (withForwarded base forwarded) = .column c := by
  refine Expr.inline_column rfl ?_
  rw [withForwarded, getElem?_append_right (Nat.le_add_right ..), Nat.add_sub_cancel_left,
    getElem?_map, hk]
  rfl

section

variable {g : List ColumnRef → Leaf → Expr}

/-- What changes of leaves make equal for each expression of a list, they make equal for the list.
-/
theorem Settles.mapM {f : Expr → StateM (List ColumnRef) Expr} {es : List Expr}
    (hf : ∀ e ∈ es,
      Settles (fun final e' => e'.mapLeaves (g final) = e.mapLeaves (g final)) (f e)) :
    Settles (fun final es' => es'.map (Expr.mapLeaves (g final)) =
      es.map (Expr.mapLeaves (g final))) (es.mapM f) := by
  induction es with
  | nil => exact .pure fun _ => rfl
  | cons e es ih =>
      rw [mapM_cons]
      refine (hf e mem_cons_self).bind fun e' => ?_
      refine .bind (ih fun a ha => hf a (mem_cons_of_mem _ ha)) fun es' => .pure ?_
      intro final hes he
      rw [map_cons, map_cons, he, hes]

theorem Settles.mapLeavesM {f : Leaf → StateM (List ColumnRef) Expr}
    (hf : ∀ l, Settles (fun final e => e.mapLeaves (g final) = g final l) (f l)) (e : Expr) :
    Settles (fun final e' => e'.mapLeaves (g final) = e.mapLeaves (g final)) (e.mapLeavesM f) := by
  induction e using Expr.ind with
  | leaf l => exact hf l
  | app head args ih =>
      rw [Expr.mapLeavesM_app]
      refine .bind (.mapM ih) fun args' => .pure fun final hargs => ?_
      rw [Expr.mapLeaves_app, Expr.mapLeaves_app, hargs]

/-- Forwarding columns is invisible to a change of leaves that does to the place of a forwarded
column what it does to the column. -/
theorem settles_forwardColumns {width : Nat} (e : Expr)
    (hg : ∀ final k c, final[k]? = some c → c.source ≠ id →
      g final (.column ⟨id, width + k⟩) = g final (.column c)) :
    Settles (fun final e' => e'.mapLeaves (g final) = e.mapLeaves (g final))
      (forwardColumns id width e) := by
  unfold forwardColumns
  split
  · exact .pure fun _ => rfl
  · refine .mapLeavesM (fun l => ?_) e
    cases l with
    | column c =>
        dsimp only
        split
        · exact .pure fun _ => rfl
        · next hc =>
          intro s
          simp only [bind_pure_comp, map_bind, StateT.run_bind, StateT.run_get, StateT.run_map,
            pure_bind]
          cases hplace : s.idxOf? c with
          | some k =>
              rw [idxOf?, findIdx?_eq_some_iff_getElem] at hplace
              obtain ⟨hlt, heq, -⟩ := hplace
              refine ⟨prefix_refl s, fun final (hfinal : s <+: final) => hg final k c ?_ hc⟩
              rw [prefix_iff_getElem?.mp hfinal k hlt, eq_of_beq heq]
          | none =>
              refine ⟨prefix_append s [c], fun final (hfinal : s ++ [c] <+: final) =>
                hg final s.length c ?_ hc⟩
              rw [prefix_iff_getElem?.mp hfinal s.length (by simp), getElem_concat_length rfl]
    | _ => exact .pure fun _ => rfl

theorem settles_splitUpper {exprs : List Expr}
    (hg : ∀ final k c, final[k]? = some c → c.source ≠ id →
      g final (.column ⟨id, exprs.length + k⟩) = g final (.column c)) :
    (splitUpper id exprs).1.map (Expr.mapLeaves (g (splitUpper id exprs).2)) =
      (splitWindows id exprs 0).upper.map (Expr.mapLeaves (g (splitUpper id exprs).2)) :=
  (Settles.mapM (fun e _ => settles_forwardColumns e hg) []).2 _ (prefix_refl _)

end

/-- Inlining the lower half into the upper one gives the projection, expression by expression. -/
theorem inline_splitUpper {exprs : List Expr}
    (hexprs : ∀ e ∈ exprs, ∀ c ∈ e.columns, c.source ≠ id) :
    (splitUpper id exprs).1.map (Expr.inline id
      (withForwarded (splitWindows id exprs 0).lower (splitUpper id exprs).2)) = exprs := by
  have hlength : (splitWindows id exprs 0).lower.length = exprs.length :=
    (length_splitWindows exprs 0).1
  have hforward : (splitUpper id exprs).1.map (Expr.inline id _) =
      (splitWindows id exprs 0).upper.map (Expr.inline id _) :=
    settles_splitUpper (g := fun final =>
      Expr.inlineLeaf id (withForwarded (splitWindows id exprs 0).lower final))
      fun final k c hk hc => by
        rw [← hlength]
        exact (inline_forwarded hk).trans (Expr.inline_column_of_ne hc).symm
  rw [hforward]
  obtain ⟨hlower, hupper⟩ := splitWindows_eq id exprs 0
  rw [hupper]
  refine ext_getElem? fun k => ?_
  rw [getElem?_map, getElem?_mapIdx]
  cases hk : exprs[k]? with
  | none => rfl
  | some e =>
      refine congrArg some (inline_splitExpr ?_ (hexprs e (mem_of_getElem? hk)))
      have hlt : 0 + k < (splitWindows id exprs 0).lower.length := by
        rw [hlength, Nat.zero_add]
        exact (List.getElem?_eq_some_iff.mp hk).1
      rw [withForwarded, getElem?_append_left hlt, hlower, getElem?_mapIdx]
      simp [hk]

end QueryPlan
