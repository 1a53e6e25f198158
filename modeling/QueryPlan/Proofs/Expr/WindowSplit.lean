import QueryPlan.Pass.WindowSeparation
import QueryPlan.Proofs.Expr.Stateful
/-!
# QueryPlan.Proofs.Expr.WindowSplit

**The two halves of a projection.** The lower half of a projection that is taken apart has no
other leaves than the projection itself. The upper half, once its columns are forwarded, refers to
columns of the lower one only: to a place of an expression, or to a forwarded column behind them
(`forward_columns_of_split`).
-/

namespace QueryPlan

namespace Expr

/-- Cutting out a window function leaves the other leaves in place. -/
theorem leaves_takeWindow? {e hole window rest : Expr}
    (h : e.takeWindow? hole = some (window, rest)) :
    window.leaves ⊆ e.leaves ∧ rest.isColumn = false ∧
      ∀ l ∈ rest.leaves, l ∈ hole.leaves ∨ l ∈ e.leaves := by
  induction e using ind generalizing window rest with
  | leaf l => rw [takeWindow?] at h; cases h
  | app head args ih =>
      rw [takeWindow?, Option.map_eq_some_iff] at h
      obtain ⟨⟨window', args'⟩, hargs, ⟨⟩⟩ := h
      have hall : window.leaves ⊆ args.flatMap leaves ∧
          ∀ l ∈ args'.flatMap leaves, l ∈ hole.leaves ∨ l ∈ args.flatMap leaves := by
        clear head
        induction args generalizing args' with
        | nil => rw [takeWindowAll?] at hargs; cases hargs
        | cons a as ihArgs =>
            rw [takeWindowAll?] at hargs
            simp only [List.flatMap_cons, List.mem_append]
            split at hargs
            · cases hargs
              refine ⟨List.subset_append_left _ _, fun l hl => ?_⟩
              rw [List.flatMap_cons, List.mem_append] at hl
              exact hl.imp id .inr
            · split at hargs
              · next window' a' htake =>
                cases hargs
                obtain ⟨hwindow, -, hrest⟩ := ih a List.mem_cons_self htake
                refine ⟨List.Subset.trans hwindow (List.subset_append_left _ _), fun l hl => ?_⟩
                rw [List.flatMap_cons, List.mem_append] at hl
                rcases hl with hl | hl
                · exact (hrest l hl).imp id .inl
                · exact .inr (.inr hl)
              · rw [Option.map_eq_some_iff] at hargs
                obtain ⟨⟨window', as'⟩, has, ⟨⟩⟩ := hargs
                obtain ⟨hwindow, hrest⟩ :=
                  ihArgs (fun e he => ih e (List.mem_cons_of_mem _ he)) as' has
                refine ⟨List.Subset.trans hwindow (List.subset_append_right _ _), fun l hl => ?_⟩
                rw [List.flatMap_cons, List.mem_append] at hl
                rcases hl with hl | hl
                · exact .inr (.inl hl)
                · exact (hrest l hl).imp id .inr
      rw [leaves_app, leaves_app]
      exact ⟨hall.1, rfl, hall.2⟩

/-! ### Moved columns -/

section

variable (f : ColumnRef → ColumnRef)

theorem isWindowCall_mapColumns (kind : WindowKind) (e : Expr) :
    (e.mapColumns f).isWindowCall kind = e.isWindowCall kind := by
  cases e with
  | leaf l => cases l <;> rfl
  | app head args => rw [mapColumns_app]; cases head <;> rfl

theorem isWindowSum_mapColumns (e : Expr) : (e.mapColumns f).isWindowSum = e.isWindowSum := by
  cases e with
  | leaf l => cases l <;> rfl
  | app head args =>
      rw [mapColumns_app]
      cases head with
      | case => rcases args with _ | ⟨a, _ | ⟨b, _ | ⟨c, _ | ⟨d, args⟩⟩⟩⟩ <;>
          simp [isWindowSum, isWindowCall_mapColumns]
      | _ => rfl

theorem isWindow_mapColumns (e : Expr) : (e.mapColumns f).isWindow = e.isWindow := by
  fun_induction isWindow e with
  | case1 w args => rw [mapColumns_app, isWindow]
  | case2 type e ih => rw [mapColumns_app, List.map_singleton, isWindow, ih]
  | case3 type sum count =>
      rw [mapColumns_app, List.map_cons, List.map_singleton, isWindow, isWindowCall_mapColumns,
        isWindowSum_mapColumns]
  | case4 e hwindow hcast hdivide =>
      rw [← isWindowSum_mapColumns f e]
      cases e with
      | leaf l => cases l <;> rfl
      | app head args =>
          rw [mapColumns_app]
          refine isWindow.eq_4 _ ?_ ?_ ?_
          · rintro w as ⟨⟩
            exact hwindow w args rfl
          · intro type e heq
            obtain ⟨rfl, hargs⟩ := app.inj heq
            obtain ⟨a, rfl, -⟩ := List.map_eq_singleton_iff.mp hargs
            exact hcast type a rfl
          · intro type sum count heq
            obtain ⟨rfl, hargs⟩ := app.inj heq
            obtain ⟨a, as, rfl, -, has⟩ := List.map_eq_cons_iff.mp hargs
            obtain ⟨b, rfl, -⟩ := List.map_eq_singleton_iff.mp has
            exact hdivide type a b rfl

theorem isSome_takeWindowAll? (es : List Expr) (hole : Expr) :
    (takeWindowAll? es hole).isSome =
      es.any fun e => e.isWindow || (e.takeWindow? hole).isSome := by
  induction es with
  | nil => rw [takeWindowAll?]; rfl
  | cons e es ih =>
      rw [takeWindowAll?, List.any_cons]
      split
      · next hwindow => rw [hwindow]; rfl
      · next hwindow =>
        split
        · next htake => simp [htake]
        · next htake => simp [htake, hwindow, ih]

theorem isSome_takeWindow?_app (head : Head) (args : List Expr) (hole : Expr) :
    ((app head args).takeWindow? hole).isSome =
      args.any fun e => e.isWindow || (e.takeWindow? hole).isSome := by
  rw [takeWindow?, Option.isSome_map, isSome_takeWindowAll?]

/-- Whether there is a window function to cut out depends neither on the columns of an expression nor
on what is to take its place. -/
theorem isSome_takeWindow?_mapColumns (e hole hole' : Expr) :
    ((e.mapColumns f).takeWindow? hole').isSome = (e.takeWindow? hole).isSome := by
  induction e using ind with
  | leaf l => cases l <;> rfl
  | app head args ih =>
      rw [mapColumns_app, isSome_takeWindow?_app, isSome_takeWindow?_app, List.any_map]
      rw [Bool.eq_iff_iff, List.any_eq_true, List.any_eq_true]
      refine exists_congr fun e => and_congr_right fun he => ?_
      rw [Function.comp_apply, isWindow_mapColumns, ih e he]

end

/-- Whether a window function lies inside of an expression, which is none itself. -/
def embedsWindow (e : Expr) : Bool := !e.isWindow && (e.takeWindow? (.bool true)).isSome

theorem embedsWindow_mapColumns (f : ColumnRef → ColumnRef) (e : Expr) :
    (e.mapColumns f).embedsWindow = e.embedsWindow := by
  rw [embedsWindow, embedsWindow, isWindow_mapColumns, isSome_takeWindow?_mapColumns]

end Expr

variable {id : NodeId}

/-- Expressions are taken apart if a window function lies inside of one of them. -/
theorem found_splitWindows (es : List Expr) (i : Nat) :
    (splitWindows id es i).found = es.any Expr.embedsWindow := by
  induction es generalizing i with
  | nil => rfl
  | cons e es ih =>
      have hcut := Expr.isSome_takeWindow?_mapColumns (fun c => c) e (.column ⟨id, i⟩) (.bool true)
      rw [Expr.mapColumns_id] at hcut
      rw [splitWindows, List.any_cons, Expr.embedsWindow, hcut]
      split
      · next hwindow => simp [hwindow, ih]
      · next hwindow =>
        split
        · next htake => simp [hwindow, htake]
        · next htake => simp [htake, ih]

/-- Both halves have an expression for each expression. -/
theorem length_splitWindows (es : List Expr) (i : Nat) :
    (splitWindows id es i).lower.length = es.length ∧
      (splitWindows id es i).upper.length = es.length := by
  induction es generalizing i with
  | nil => exact ⟨rfl, rfl⟩
  | cons e es ih =>
      rw [splitWindows]
      split
      · simp [ih]
      · split <;> simp [ih]

/-- The lower half has the leaves of the projection. -/
theorem leaves_splitWindows_lower (es : List Expr) (i : Nat) :
    (splitWindows id es i).lower.flatMap Expr.leaves ⊆ es.flatMap Expr.leaves := by
  induction es generalizing i with
  | nil => exact List.Subset.refl _
  | cons e es ih =>
      have hcons : ∀ {e' : Expr}, e'.leaves ⊆ e.leaves →
          (e' :: (splitWindows id es (i + 1)).lower).flatMap Expr.leaves ⊆
            (e :: es).flatMap Expr.leaves := by
        intro e' he
        rw [List.flatMap_cons, List.flatMap_cons]
        exact List.append_subset.mpr
          ⟨List.Subset.trans he (List.subset_append_left _ _),
            List.Subset.trans (ih (i + 1)) (List.subset_append_right _ _)⟩
      rw [splitWindows]
      split
      · exact hcons (List.Subset.refl _)
      · split
        · next htake => exact hcons (Expr.leaves_takeWindow? htake).1
        · exact hcons (List.Subset.refl _)

/-- An expression of the upper half is a place of the lower one, or computes something from such
places and from what the projection reads. -/
theorem mem_splitWindows_upper (es : List Expr) (i : Nat) :
    ∀ e ∈ (splitWindows id es i).upper,
      (∃ k < i + es.length, e = .column ⟨id, k⟩) ∨
        (e.isColumn = false ∧ ∀ l ∈ e.leaves,
          (∃ k < i + es.length, l = .column ⟨id, k⟩) ∨ l ∈ es.flatMap Expr.leaves) := by
  induction es generalizing i with
  | nil => exact fun e he => absurd he List.not_mem_nil
  | cons e es ih =>
      have hlength : i + 1 + es.length = i + (e :: es).length := by
        rw [List.length_cons]
        omega
      have hrest : ∀ d ∈ (splitWindows id es (i + 1)).upper,
          (∃ k < i + (e :: es).length, d = .column ⟨id, k⟩) ∨
            (d.isColumn = false ∧ ∀ l ∈ d.leaves,
              (∃ k < i + (e :: es).length, l = .column ⟨id, k⟩) ∨
                l ∈ (e :: es).flatMap Expr.leaves) := by
        intro d hd
        rw [← hlength, List.flatMap_cons]
        refine (ih (i + 1) d hd).imp (fun h => h) fun ⟨hcolumn, hleaves⟩ => ⟨hcolumn, fun l hl => ?_⟩
        exact (hleaves l hl).imp (fun h => h) (List.mem_append_right _)
      have hhere : i < i + (e :: es).length := by
        rw [List.length_cons]
        omega
      rw [splitWindows]
      split
      · intro d hd
        rcases List.mem_cons.mp hd with rfl | hd
        · exact .inl ⟨i, hhere, rfl⟩
        · exact hrest d hd
      · split
        · next window d' htake =>
          intro d hd
          rcases List.mem_cons.mp hd with rfl | hd
          · obtain ⟨-, hcolumn, hleaves⟩ := Expr.leaves_takeWindow? htake
            refine .inr ⟨hcolumn, fun l hl => ?_⟩
            rcases hleaves l hl with hl | hl
            · exact .inl ⟨i, hhere, List.mem_singleton.mp hl⟩
            · exact .inr (List.mem_flatMap.mpr ⟨e, List.mem_cons_self, hl⟩)
          · exact hrest d hd
        · intro d hd
          rcases List.mem_cons.mp hd with rfl | hd
          · exact .inl ⟨i, hhere, rfl⟩
          · exact hrest d hd

/-- While columns are forwarded, every column from elsewhere joins the list, and what is put in
place refers to a column of the lower half. -/
def forwarding (id : NodeId) (width : Nat) (allowed : List ColumnRef) :
    Carried (List ColumnRef) where
  State s := s ⊆ allowed
  Below s t := s.length ≤ t.length
  Leaf s l := l.isPositional = false ∧
    ∀ c, l = .column c → c.source = id ∧ c.index < width + s.length
  refl _ := Nat.le_refl _
  trans := Nat.le_trans
  mono hst h := ⟨h.1, fun c hc => ⟨(h.2 c hc).1, by have := (h.2 c hc).2; omega⟩⟩

/-- Forwarding the columns of an expression of the upper half. -/
theorem forwardColumns_keeps {width : Nat} {allowed : List ColumnRef}
    (hallowed : ∀ c ∈ allowed, c.source ≠ id) {e : Expr}
    (he : (∃ k < width, e = .column ⟨id, k⟩) ∨
      (e.isColumn = false ∧ ∀ l ∈ e.leaves, l.isPositional = false ∧
        ∀ c, l = .column c → (c.source = id ∧ c.index < width) ∨ c ∈ allowed))
    {s : List ColumnRef} (hs : s ⊆ allowed) :
    (forwarding id width allowed).Keeps ((forwardColumns id width e).run s).1.leaves s
      ((forwardColumns id width e).run s).2 := by
  have hput : ∀ {s : List ColumnRef} {d : ColumnRef} {t : List ColumnRef}, t ⊆ allowed →
      s.length ≤ t.length → d.source = id → d.index < width + t.length →
      (forwarding id width allowed).Keeps (Expr.column d).leaves s t := by
    refine fun ht hlength hd hindex => ⟨ht, hlength, fun l hl => ?_⟩
    obtain rfl := List.mem_singleton.mp hl
    exact ⟨rfl, fun c hc => by cases hc; exact ⟨hd, hindex⟩⟩
  rcases he with ⟨k, hk, rfl⟩ | ⟨hcolumn, hleaves⟩
  · exact hput hs (Nat.le_refl _) rfl (Nat.lt_add_right _ hk)
  · unfold forwardColumns
    rw [if_neg (by simp [hcolumn])]
    refine Carried.mapLeavesM_state _ (fun l hl s hs => ?_) hs
    obtain ⟨hpositional, hcolumn⟩ := hleaves l hl
    cases l with
    | column c =>
        rcases hcolumn c rfl with ⟨hsource, hindex⟩ | hmem
        · simp only [hsource, if_true]
          exact hput hs (Nat.le_refl _) hsource (Nat.lt_add_right _ hindex)
        · simp only [hallowed c hmem, ↓reduceIte, bind_pure_comp, map_bind, StateT.run_bind,
            StateT.run_get, StateT.run_map, pure_bind]
          cases hidx : List.idxOf? c s with
          | some k =>
              rw [List.idxOf?, List.findIdx?_eq_some_iff_getElem] at hidx
              change (forwarding id width allowed).Keeps (Expr.column ⟨id, width + k⟩).leaves s s
              exact hput hs (Nat.le_refl _) rfl (Nat.add_lt_add_left hidx.1 _)
          | none =>
              change (forwarding id width allowed).Keeps
                (Expr.column ⟨id, width + s.length⟩).leaves s (s ++ [c])
              refine hput (List.append_subset.mpr ⟨hs, by simpa using hmem⟩) ?_ rfl ?_
              · simp
              · simp
    | positional i => cases hpositional
    | _ =>
        refine ⟨hs, Nat.le_refl _, fun l hl => ?_⟩
        obtain rfl := List.mem_singleton.mp hl
        exact ⟨rfl, fun c hc => by cases hc⟩

/-- A projection taken apart: the expressions of the upper half, and the columns that the lower
half forwards to it. -/
def splitUpper (id : NodeId) (exprs : List Expr) : List Expr × List ColumnRef :=
  ((splitWindows id exprs 0).upper.mapM (forwardColumns id exprs.length)).run []

/-- The upper half of a projection refers to columns of the lower half only, and what is
forwarded to it are columns that the projection refers to. -/
theorem splitUpper_spec {exprs : List Expr} (hbound : ∀ e ∈ exprs, e.hasPositional = false)
    (hsource : ∀ e ∈ exprs, ∀ c ∈ e.columns, c.source ≠ id) :
    (splitUpper id exprs).1.length = exprs.length ∧
      (splitUpper id exprs).2 ⊆ exprs.flatMap Expr.columns ∧
      ∀ e ∈ (splitUpper id exprs).1, e.hasPositional = false ∧ ∀ c ∈ e.columns,
        c.source = id ∧ c.index < exprs.length + (splitUpper id exprs).2.length := by
  have hallowed : ∀ c ∈ exprs.flatMap Expr.columns, c.source ≠ id := by
    intro c hc
    obtain ⟨e, he, hc⟩ := List.mem_flatMap.mp hc
    exact hsource e he c hc
  have hupper : ∀ e ∈ (splitWindows id exprs 0).upper,
      (∃ k < exprs.length, e = .column ⟨id, k⟩) ∨
        (e.isColumn = false ∧ ∀ l ∈ e.leaves, l.isPositional = false ∧
          ∀ c, l = .column c → (c.source = id ∧ c.index < exprs.length) ∨
            c ∈ exprs.flatMap Expr.columns) := by
    intro e he
    have hcases := mem_splitWindows_upper exprs 0 e he
    rw [Nat.zero_add] at hcases
    refine hcases.imp (fun h => h) fun ⟨hcolumn, hleaves⟩ => ⟨hcolumn, fun l hl => ?_⟩
    rcases hleaves l hl with ⟨k, hk, rfl⟩ | hl
    · exact ⟨rfl, fun c hc => by cases hc; exact .inl ⟨rfl, hk⟩⟩
    · obtain ⟨d, hd, hl⟩ := List.mem_flatMap.mp hl
      refine ⟨Expr.hasPositional_eq_false_iff.mp (hbound d hd) l hl, ?_⟩
      rintro c rfl
      exact .inr (List.mem_flatMap.mpr ⟨d, hd, Expr.mem_columns_iff.mpr hl⟩)
  obtain ⟨hkeeps, hlength⟩ := (forwarding id exprs.length (exprs.flatMap Expr.columns)).mapM_state
    (fun e he s hs => forwardColumns_keeps hallowed (hupper e he) hs)
    (List.nil_subset _ : ([] : List ColumnRef) ⊆ _)
  refine ⟨hlength.trans (length_splitWindows exprs 0).2, hkeeps.1, fun e he => ⟨?_, fun c hc => ?_⟩⟩
  · rw [Expr.hasPositional_eq_false_iff]
    exact fun l hl => (hkeeps.2.2 l (List.mem_flatMap.mpr ⟨e, he, hl⟩)).1
  · rw [Expr.mem_columns_iff] at hc
    exact (hkeeps.2.2 _ (List.mem_flatMap.mpr ⟨e, he, hc⟩)).2 c rfl

end QueryPlan
