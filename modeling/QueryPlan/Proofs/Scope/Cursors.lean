import QueryPlan.Proofs.Query
import QueryPlan.Proofs.Scope.Entries
/-!
# QueryPlan.Proofs.Scope.Cursors

**What the cursor argument of a table function forwards.** The input of a table function is the node
that its entry names, but the width of the cursor is the width of the node in front of the entry.
So the cursor forwards the leading columns of the input, as many as the node in front has, and
all of them exactly if the two nodes are equally wide (`cursor_forwards_iff`). They are the same node if
the entry names no input. A cursor wider than the input is refused when the plan is bound.
-/

namespace QueryPlan

open List

/-- The cursor of a table function forwards some arguments: these stand at a place among the
arguments, and the cursor columns count them. -/
def TableFunction.Forwards (t : TableFunction) (place : Nat) (args : List Expr) : Prop :=
  t.cursorColumns = range args.length ∧ (t.args.drop place).take args.length = args

/-- A cursor forwards one number of arguments only. -/
theorem TableFunction.Forwards.length_eq {t : TableFunction} {place place' : Nat}
    {args args' : List Expr} (h : t.Forwards place args) (h' : t.Forwards place' args') :
    args.length = args'.length := by
  have hrange := congrArg length (h.1.symm.trans h'.1)
  rwa [length_range, length_range] at hrange

namespace Relation

variable {read : Json → Build Expr} {p : Plan} {function : String} {invocation operand j : Json}
  {operands before after : List Json} {cursor cursor' columns : List Nat} {args args' : List Expr}
  {s s' : BuildState} {op : Operator}

/-- The number of operands that are no cursors. -/
def plainOperands (operands : List Json) : Nat :=
  operands.countP fun o => (isCursor o).holds (!·)

theorem plainOperands_cons_cursor (h : isCursor operand = .ok true) :
    plainOperands (operand :: operands) = plainOperands operands :=
  countP_cons_of_neg (by rw [h]; nofun)

theorem plainOperands_cons_plain (h : isCursor operand = .ok false) :
    plainOperands (operand :: operands) = plainOperands operands + 1 :=
  countP_cons_of_pos (by rw [h]; rfl)

/-- A cursor counts the columns of the node in front. -/
theorem cursorColumns_eq_ok (h : cursorColumns p invocation operand = .ok columns) :
    ∃ previous w, p.root? = some previous ∧ p.width previous = .ok w ∧ columns = range w := by
  obtain ⟨cursors, -, h⟩ := Result.bind_eq_ok.mp h
  obtain ⟨cursorList, -, h⟩ := Result.bind_eq_ok.mp h
  obtain ⟨_, -, h⟩ := Result.bind_eq_ok.mp h
  obtain ⟨previous, hprevious, h⟩ := Result.bind_eq_ok.mp h
  obtain ⟨w, hw, h⟩ := Result.bind_eq_ok.mp h
  obtain ⟨declared, -, h⟩ := Result.bind_eq_ok.mp h
  obtain ⟨declaredList, -, h⟩ := Result.bind_eq_ok.mp h
  obtain ⟨_, -, h⟩ := Result.bind_eq_ok.mp h
  exact ⟨previous, w, Result.required_eq_ok.mp hprevious, hw, (Result.pure_eq_ok.mp h).symm⟩

/-- A cursor operand stands for the columns that it forwards, any other one for one argument. -/
theorem addOperand_eq_ok
    (h : addOperand read p function invocation (cursor, args) operand s =
      .ok ((cursor', args'), s')) :
    isCursor operand = .ok true ∧ cursor = [] ∧ cursorColumns p invocation operand = .ok cursor' ∧
        args' = args ++ cursor'.map Expr.positional ∨
      isCursor operand = .ok false ∧ cursor' = cursor ∧ ∃ e, args' = args ++ [e] := by
  obtain ⟨isCursor, hisCursor, h⟩ := Build.bind_lift_eq_ok.mp h
  cases isCursor with
  | true =>
      obtain ⟨_, hempty, h⟩ := Build.bind_lift_eq_ok.mp h
      obtain ⟨columns, hcolumns, h⟩ := Build.bind_lift_eq_ok.mp h
      obtain ⟨hstate, -⟩ := Build.pure_eq_ok.mp h
      obtain ⟨rfl, rfl⟩ := Prod.mk.inj hstate
      exact .inl ⟨hisCursor, isEmpty_iff.mp (Result.ensure_eq_ok.mp hempty), hcolumns, rfl⟩
  | false =>
      obtain ⟨e, t, -, h⟩ := Build.bind_eq_ok.mp h
      obtain ⟨hstate, -⟩ := Build.pure_eq_ok.mp h
      obtain ⟨rfl, rfl⟩ := Prod.mk.inj hstate
      exact .inr ⟨hisCursor, rfl, e, rfl⟩

/-- As long as no column is forwarded, there is one argument for each operand that is no cursor. -/
theorem length_of_foldlM_addOperand
    (h : operands.foldlM (addOperand read p function invocation) (cursor, args) s =
      .ok (([], args'), s')) :
    cursor = [] ∧ args'.length = args.length + plainOperands operands := by
  induction operands generalizing cursor args s with
  | nil =>
      obtain ⟨hstate, -⟩ := Build.pure_eq_ok.mp h
      obtain ⟨rfl, rfl⟩ := Prod.mk.inj hstate
      exact ⟨rfl, rfl⟩
  | cons o operands ih =>
      rw [foldlM_cons] at h
      obtain ⟨⟨cursor₁, args₁⟩, t, ho, h⟩ := Build.bind_eq_ok.mp h
      obtain ⟨rfl, hlength⟩ := ih h
      rcases addOperand_eq_ok ho with ⟨hcursor, rfl, -, rfl⟩ | ⟨hplain, rfl, e, rfl⟩
      · rw [plainOperands_cons_cursor hcursor, hlength, map_nil, append_nil]
        exact ⟨rfl, rfl⟩
      · rw [plainOperands_cons_plain hplain, hlength, length_append, length_singleton]
        exact ⟨rfl, by omega⟩

/-- Behind the cursor arguments are only added. A further cursor is refused, unless none of them
forwards a column. -/
theorem prefix_of_foldlM_addOperand {previous : NodeId} {w : Nat}
    (hprevious : p.root? = some previous) (hw : p.width previous = .ok w)
    (h : operands.foldlM (addOperand read p function invocation) (range w, args) s =
      .ok ((cursor', args'), s')) :
    cursor' = range w ∧ args <+: args' := by
  induction operands generalizing args s with
  | nil =>
      obtain ⟨hstate, -⟩ := Build.pure_eq_ok.mp h
      obtain ⟨rfl, rfl⟩ := Prod.mk.inj hstate
      exact ⟨rfl, prefix_rfl⟩
  | cons o operands ih =>
      rw [foldlM_cons] at h
      obtain ⟨⟨cursor₁, args₁⟩, t, ho, h⟩ := Build.bind_eq_ok.mp h
      rcases addOperand_eq_ok ho with ⟨-, -, hcolumns, rfl⟩ | ⟨-, rfl, e, rfl⟩
      · -- The further cursor counts the columns of the same node.
        obtain ⟨previous', w', hprevious', hw', rfl⟩ := cursorColumns_eq_ok hcolumns
        obtain rfl := Option.some.inj (hprevious.symm.trans hprevious')
        obtain rfl := Except.ok.inj (hw.symm.trans hw')
        obtain ⟨hcursor, hargs⟩ := ih h
        exact ⟨hcursor, (prefix_append _ _).trans hargs⟩
      · obtain ⟨hcursor, hargs⟩ := ih h
        exact ⟨hcursor, (prefix_append _ _).trans hargs⟩

/-- An entry that names no input reads the node in front of it. -/
theorem inputsOf_unnamed {inputs : List NodeId} (hunnamed : j.has "inputs" = false)
    (h : inputsOf p j = .ok inputs) : ∃ previous, p.root? = some previous ∧ inputs = [previous] := by
  rw [inputsOf, if_neg (by rw [hunnamed]; nofun)] at h
  obtain ⟨previous, hprevious, h⟩ := Result.bind_eq_ok.mp h
  exact ⟨previous, Result.required_eq_ok.mp hprevious, (Result.pure_eq_ok.mp h).symm⟩

/-- The reader of a table function forwards as many positions as the node in front has columns. -/
theorem tableFunction_forwards
    (hoperands : (j.member "invocation").elementsOf "operands" = before ++ operand :: after)
    (hcursor : isCursor operand = .ok true) (h : tableFunction read p j s = .ok (op, s')) :
    ∃ previous w t, p.root? = some previous ∧ p.width previous = .ok w ∧ op = .tableFunction t ∧
      t.Forwards (plainOperands before) ((range w).map Expr.positional) := by
  unfold tableFunction at h
  obtain ⟨invocation, hinvocation, h⟩ := Build.bind_lift_eq_ok.mp h
  obtain ⟨name, -, h⟩ := Build.bind_lift_eq_ok.mp h
  obtain ⟨function, -, h⟩ := Build.bind_lift_eq_ok.mp h
  obtain ⟨list, hlist, h⟩ := Build.bind_lift_eq_ok.mp h
  obtain ⟨operands, hall, h⟩ := Build.bind_lift_eq_ok.mp h
  obtain ⟨⟨cursor, args⟩, _, hfold, h⟩ := Build.bind_eq_ok.mp h
  obtain ⟨rowType, -, h⟩ := Build.bind_lift_eq_ok.mp h
  obtain ⟨results, -, h⟩ := Build.bind_lift_eq_ok.mp h
  obtain ⟨rfl, -⟩ := Build.pure_eq_ok.mp h
  rw [Json.member_of_field hinvocation, Json.elementsOf_of_field hlist hall] at hoperands
  rw [hoperands] at hfold
  obtain ⟨⟨cursor₁, args₁⟩, _, ⟨cursor₂, args₂⟩, _, hbefore, hoperand, hafter⟩ :=
    Build.foldlM_split.mp hfold
  rcases addOperand_eq_ok hoperand with ⟨-, rfl, hcolumns, rfl⟩ | ⟨hplain, -, -⟩
  · obtain ⟨previous, w, hprevious, hw, rfl⟩ := cursorColumns_eq_ok hcolumns
    obtain ⟨-, hlength⟩ := length_of_foldlM_addOperand hbefore
    obtain ⟨hcursor', post, hargs⟩ := prefix_of_foldlM_addOperand hprevious hw hafter
    refine ⟨previous, w, _, hprevious, hw, rfl, ?_, ?_⟩
    · rw [length_map, length_range]
      exact hcursor'
    · rw [length_nil, Nat.zero_add] at hlength
      change (args.drop _).take _ = _
      rw [← hargs, append_assoc, ← hlength, drop_left, take_left]
  · cases hcursor.symm.trans hplain

end Relation

/-! ### Binding -/

section

variable {output : List ColumnRef} {es es' args : List Expr} {t : TableFunction} {place w : Nat}

/-- A position is bound to the column at the position. -/
theorem Expr.bindM_positional {i : Nat} {e : Expr}
    (h : ((Expr.positional i).bindM output).run none = (e, none)) :
    ∃ c, output[i]? = some c ∧ e = .column c := by
  rw [bindM_eq] at h
  change bindLeaf output (.positional i) none = _ at h
  unfold bindLeaf at h
  dsimp only at h
  split at h
  · next c hc => exact ⟨c, hc, (Prod.mk.inj h).1.symm⟩
  · cases h

/-- If no position of a list is out of range, none was when any of its expressions was bound. -/
theorem mapM_bindM (hes : ∀ e ∈ es, e.Columnless)
    (h : (es.mapM (Expr.bindM output)).run none = (es', none)) :
    Forall₂ (fun e e' => (e.bindM output).run none = (e', none)) es es' := by
  induction es generalizing es' with
  | nil =>
      obtain ⟨rfl, -⟩ := Prod.mk.inj h
      exact .nil
  | cons e es ih =>
      obtain ⟨he, hes⟩ := forall_mem_cons.mp hes
      rw [mapM_cons] at h
      obtain ⟨rfl, hstate⟩ := Prod.mk.inj h
      -- A position out of range would stay in the state.
      have hnone : ((e.bindM output).run none).2 = none :=
        ((Expr.binding output).mapM_state (fun k hk s _ => Expr.bindM_keeps (hes k hk) s)
          trivial).1.2.1 hstate
      change Forall₂ _ _ (((e.bindM output).run none).1 ::
        ((es.mapM (Expr.bindM output)).run ((e.bindM output).run none).2).1)
      change ((es.mapM (Expr.bindM output)).run ((e.bindM output).run none).2).2 = none at hstate
      rw [hnone] at hstate ⊢
      exact .cons (Prod.ext rfl hnone) (ih hes (Prod.ext rfl hstate))

/-- Positions from zero on are bound to the leading columns. -/
theorem TableFunction.Forwards.bindM
    (h : t.Forwards place ((range w).map Expr.positional)) (hargs : ∀ e ∈ t.args, e.Columnless)
    (hrun : (t.args.mapM (Expr.bindM output)).run none = (args, none)) :
    w ≤ output.length ∧
      ({ t with args := args } : TableFunction).Forwards place ((output.take w).map .column) := by
  obtain ⟨hcursor, hplace⟩ := h
  rw [length_map, length_range] at hcursor hplace
  have hbound := forall₂_take w (forall₂_drop place (mapM_bindM hargs hrun))
  rw [hplace, forall₂_map_left_iff] at hbound
  have hlength : ((args.drop place).take w).length = w := by
    rw [← hbound.length_eq, length_range]
  have hcolumn : ∀ k < w, ∃ c, output[k]? = some c ∧
      ((args.drop place).take w)[k]? = some (.column c) := by
    intro k hk
    have hpair := hbound.get (by rwa [length_range]) (hlength.symm ▸ hk)
    rw [get_eq_getElem, getElem_range] at hpair
    obtain ⟨c, hc, hbind⟩ := Expr.bindM_positional hpair
    exact ⟨c, hc, List.getElem?_eq_some_iff.mpr ⟨_, hbind⟩⟩
  -- The last position that is forwarded is in range.
  have hwidth : w ≤ output.length := by
    rcases Nat.eq_zero_or_pos w with rfl | hpos
    · exact Nat.zero_le _
    · obtain ⟨c, hc, -⟩ := hcolumn (w - 1) (by omega)
      have := (List.getElem?_eq_some_iff.mp hc).1
      omega
  refine ⟨hwidth, ?_, ?_⟩
  · rw [length_map, length_take, Nat.min_eq_left hwidth]
    exact hcursor
  · rw [length_map, length_take, Nat.min_eq_left hwidth]
    change (args.drop place).take w = _
    refine ext_getElem (by simp [hlength, hwidth]) fun k hk _ => ?_
    obtain ⟨c, hc, hcolumn⟩ := hcolumn k (by omega)
    rw [(List.getElem?_eq_some_iff.mp hcolumn).2, getElem_map, getElem_take,
      (List.getElem?_eq_some_iff.mp hc).2]

/-- A bound table function differs in its arguments, which are bound. -/
theorem Plan.BindsTo.tableFunction {p q : Plan} {n : NodeId} (h : p.BindsTo q n)
    (hop : p.op n = .tableFunction t) :
    ∃ args, (t.args.mapM (Expr.bindM (p.columnsOf (p.reads n)))).run none = (args, none) ∧
      q.op n = .tableFunction { t with args := args } := by
  unfold BindsTo at h
  rw [hop] at h
  rcases h with ⟨hexprs, hsame⟩ | hrun
  · have hargs : t.args = [] := (append_eq_nil_iff.mp hexprs).1
    refine ⟨t.args, ?_, hsame⟩
    rw [hargs]
    rfl
  · obtain ⟨hfunction, hstate⟩ := Prod.mk.inj hrun
    exact ⟨_, Prod.ext rfl hstate, hfunction.symm⟩

end

/-! ### Table functions of documents -/

section

variable {env : Environment} {nested : Expr.PlanBuilder} {p q : Plan} {s s' : BuildState}
  {d entry operand : Json} {before after : List Json} {id input : NodeId} {t : TableFunction}
  {place w : Nat}

/-- The table function of an entry, as it is read: its cursor forwards as many positions as the node
in front has columns. -/
theorem Plan.ofDocument_cursor
    (hq : Plan.ofDocument env (Expr.ofDocument nested) d s = .ok (q, s'))
    (hentry : entry ∈ d.elements)
    (hkind : (entry.member "relOp").toText? = some "LogicalTableFunctionScan")
    (hoperands : (entry.member "invocation").elementsOf "operands" = before ++ operand :: after)
    (hcursor : Relation.isCursor operand = .ok true) :
    ∃ place id previous input t, Relation.idOf entry = .ok (place + 1) ∧
      q.order[place + 1]? = some id ∧ q.op id = .tableFunction t ∧ q.inputs id = [input] ∧
      q.order[place]? = some previous ∧
      t.Forwards (Relation.plainOperands before)
        ((range (q.columnCount previous)).map Expr.positional) ∧
      (entry.has "inputs" = false → input = previous) := by
  obtain ⟨-, _, r', _, _, hr, hrr', hr'q, hadd⟩ := ofDocument_entry hq hentry
  obtain ⟨r, inputs, _, buildId, _, hid, hnode, harity, rfl⟩ := Relation.addNode_eq_ok hadd
  obtain ⟨rfl, hinputs, hfunction⟩ := Relation.nodeOf_tableFunction hkind hnode
  obtain ⟨previous, w, t, hprevious, hw, rfl, hforwards⟩ :=
    Relation.tableFunction_forwards hoperands hcursor hfunction
  obtain ⟨front, hfront⟩ := getLast?_eq_some_iff.mp hprevious
  obtain ⟨input, rfl⟩ := Arity.exactly_one_admits harity
  have hlive : previous ∈ r.order := mem_of_getLast? hprevious
  have hwidth : q.columnCount previous = w := by
    rw [(hrr'.trans hr'q).columnCount_eq hr.arranged.toOrdered hlive]
    exact Except.ok.inj ((hr.arranged.width_eq hlive).symm.trans hw)
  have hadded : r.nextId ∈ (r.push (.make buildId [input] (.tableFunction t))).order :=
    mem_append_right _ (mem_singleton_self _)
  have hnew := node_alloc_self (p := r) (.make buildId [input] (.tableFunction t))
  refine ⟨front.length, r.nextId, previous, input, t, ?_, hr'q.getElem?_order ?_,
    hr'q.tableFunction _ hadded t (congrArg Node.op hnew),
    (hr'q.inputs_eq _ hadded).trans (congrArg Node.inputs hnew),
    (hrr'.trans hr'q).getElem?_order ?_, hwidth ▸ hforwards, fun hunnamed => ?_⟩
  · rw [hid, hfront, length_append, length_singleton]
  · change (r.order ++ [r.nextId])[front.length + 1]? = _
    simp [hfront]
  · simp [hfront]
  · obtain ⟨last, hlast, hsame⟩ := Relation.inputsOf_unnamed hunnamed hinputs
    cases hprevious.symm.trans hlast
    exact (cons.inj hsame).1

/-- A table function whose cursor forwards positions is bound to one whose cursor forwards the leading
columns of the input. -/
theorem Plan.Unbound.bind_cursor (h : p.Unbound) (hq : p.bind = .ok q) (hid : id ∈ p.order)
    (hop : p.op id = .tableFunction t) (hinputs : p.inputs id = [input])
    (hforwards : t.Forwards place ((range w).map Expr.positional)) :
    ∃ t' output, q.op id = .tableFunction t' ∧ q.output input = .ok output ∧
      output.length = q.columnCount input ∧ w ≤ output.length ∧
      t'.Forwards place ((output.take w).map .column) := by
  obtain ⟨hshape, hbinds⟩ := h.bindsTo hq
  have hinput : input ∈ p.order := h.arranged.mem_of_input hid (hinputs ▸ mem_singleton_self input)
  have harranged : q.Arranged p.order := h.arranged.of_sameShape hshape
  obtain ⟨args, hrun, hop'⟩ := (hbinds id hid).tableFunction hop
  rw [reads_of_input (by rw [hop]; rfl) hinputs] at hrun
  obtain ⟨hle, hforwards'⟩ := hforwards.bindM
    (fun e he => (h.unbound id hid).columnless e (hop ▸ mem_append_left _ he)) hrun
  refine ⟨_, _, hop', ?_, ?_, hle, hforwards'⟩
  · rw [harranged.output_eq hinput, hshape.columnsOf_eq, hshape.exposed_eq]
  · rw [length_columnsOf, hshape.columnCount_eq, h.arranged.columnCount_eq_sum_exposed hinput]

/-- **Cursors.** In the bound plan of a document, and of a subquery, the cursor of a table function
forwards the leading columns of the input, as many as the node in front of it has. So it forwards
the whole input exactly if the two nodes are equally wide. If the entry names no input, they are the
same node. -/
theorem cursor_forwards_iff (hbound : Plan.boundOfDocument env nested d s = .ok (p, s'))
    (hentry : entry ∈ d.elementsOf "rels")
    (hkind : (entry.member "relOp").toText? = some "LogicalTableFunctionScan")
    (hoperands : (entry.member "invocation").elementsOf "operands" = before ++ operand :: after)
    (hcursor : Relation.isCursor operand = .ok true) :
    ∃ place id previous input t output w,
      Relation.idOf entry = .ok (place + 1) ∧ p.order[place + 1]? = some id ∧
      p.op id = .tableFunction t ∧ p.inputs id = [input] ∧
      p.output input = .ok output ∧ p.width input = .ok output.length ∧
      p.order[place]? = some previous ∧ p.width previous = .ok w ∧ w ≤ output.length ∧
      t.Forwards (Relation.plainOperands before) ((output.take w).map .column) ∧
      (t.Forwards (Relation.plainOperands before) (output.map .column) ↔
        p.width previous = p.width input) ∧
      (entry.has "inputs" = false → input = previous) := by
  obtain ⟨q, rels, hrels, hq, hbind⟩ := Plan.boundOfDocument_eq_ok hbound
  rw [Json.elementsOf, Json.member_of_field hrels] at hentry
  obtain ⟨place, id, previous, input, t, hplace, hid, hop, hinputs, hprevious, hforwards, hunnamed⟩ :=
    Plan.ofDocument_cursor hq hentry hkind hoperands hcursor
  obtain ⟨hunbound, -⟩ := Plan.ofDocument_entry hq hentry
  obtain ⟨hwf, horder⟩ := hunbound.bind_wellFormed hbind
  obtain ⟨hshape, -⟩ := hunbound.bindsTo hbind
  have hlive := mem_of_getElem? hid
  have hinput := hunbound.arranged.mem_of_input hlive (hinputs ▸ mem_singleton_self input)
  obtain ⟨t', output, hop', houtput, hlength, hle, hforwards'⟩ :=
    hunbound.bind_cursor hbind hlive hop hinputs hforwards
  rw [← hshape.columnCount_eq] at hle hforwards'
  have hwidth := fun x (hx : x ∈ q.order) => hwf.arranged.width_eq (horder ▸ hx)
  have hwidthPrevious := hwidth previous (mem_of_getElem? hprevious)
  have hwidthInput := hwidth input hinput
  rw [← horder] at hid hprevious
  refine ⟨place, id, previous, input, t', output, p.columnCount previous, hplace, hid, hop',
    (hshape.inputs_eq id).trans hinputs, houtput, hlength ▸ hwidthInput, hprevious,
    hwidthPrevious, hle, hforwards', ?_, hunnamed⟩
  rw [hwidthPrevious, hwidthInput, ← hlength]
  constructor
  · intro hall
    have heq := hforwards'.length_eq hall
    rw [length_map, length_map, length_take, Nat.min_eq_left hle] at heq
    rw [heq]
  · intro heq
    rwa [Except.ok.inj heq, take_length] at hforwards'

end

/-- Rows with some columns, as an entry. -/
def rowsEntry (place : Int) (names : List String) : Json := .object
  [("id", .integer place), ("relOp", .string "LogicalValues"), ("inputs", .array []),
    ("tuples", .array []), ("type", .array (names.map fun name => .object
      [("type", .string "BOOLEAN"), ("nullable", .bool true), ("name", .string name)]))]

/-- A truth value as an operand. -/
def truthOperand : Json := .object [("literal", .bool true), ("type", .string "BOOLEAN"),
  ("target_type", .string "BOOLEAN")]

/-- A cursor as an operand. -/
def cursorOperand : Json := .object [("op", .string "CAST"), ("operands", .array [.null]),
  ("type", .object [("type", .string "CURSOR")])]

/-- A call of a table function with a truth value and a cursor of two columns. It may name its input. -/
def cursorEntry (inputs : List (String × Json)) : Json := .object
  ([("id", .integer 2), ("relOp", .string "LogicalTableFunctionScan"),
    ("invocation", .object [("op", .string "f"),
      ("operands", .array [truthOperand, cursorOperand]), ("type", .array [.null, .null])]),
    ("rowType", .array [.null])] ++ inputs)

/-- Such a call behind rows of three columns and rows of two columns. -/
def cursorDocument (inputs : List (String × Json)) : Json := .object [("rels", .array
  [rowsEntry 0 ["a", "b", "c"], rowsEntry 1 ["x", "y"], cursorEntry inputs])]

/-- The bound plan of such a call. -/
def cursorPlan (inputs : List (String × Json)) : Result (Plan × BuildState) :=
  Plan.boundOfDocument unchecked (Plan.subqueryOfDocument unchecked) (cursorDocument inputs) .start

/-- A call that names no input forwards both columns of the rows in front of it, behind the truth
value. -/
theorem cursor_forwards_unnamedInput :
    ∃ p s t output, cursorPlan [] = .ok (p, s) ∧
      cursorEntry [] ∈ (cursorDocument []).elementsOf "rels" ∧
      ((cursorEntry []).member "relOp").toText? = some "LogicalTableFunctionScan" ∧
      ((cursorEntry []).member "invocation").elementsOf "operands" =
        [truthOperand] ++ cursorOperand :: [] ∧
      Relation.isCursor cursorOperand = .ok true ∧ p.op ⟨2⟩ = .tableFunction t ∧
      p.inputs ⟨2⟩ = [⟨1⟩] ∧ p.output ⟨1⟩ = .ok output ∧ output.length = 2 ∧
      t.Forwards 1 (output.map .column) := by
  have hrun : (cursorPlan []).holds (fun r => r.1.order == [⟨0⟩, ⟨1⟩, ⟨2⟩] &&
      (r.1.width ⟨1⟩).holds (· == 2)) = true := by decide +kernel
  obtain ⟨⟨p, s⟩, hbound, htest⟩ := Result.holds_eq_true.mp hrun
  simp only [Bool.and_eq_true, beq_iff_eq] at htest
  obtain ⟨horder, hwidth⟩ := htest
  obtain ⟨width, hwidth, htwo⟩ := Result.holds_eq_true.mp hwidth
  have hentry : cursorEntry [] ∈ (cursorDocument []).elementsOf "rels" :=
    mem_cons_of_mem _ (mem_cons_of_mem _ mem_cons_self)
  have hoperands : ((cursorEntry []).member "invocation").elementsOf "operands" =
      [truthOperand] ++ cursorOperand :: [] := rfl
  have hcursor : Relation.isCursor cursorOperand = .ok true := by decide +kernel
  obtain ⟨place, id, previous, input, t, output, w, hplace, hid, hop, hinputs, houtput, hwidthInput,
    hprevious, -, -, -, hall, hunnamed⟩ := cursor_forwards_iff hbound hentry rfl hoperands hcursor
  cases hplace
  rw [horder] at hid hprevious
  cases hid
  cases hprevious
  cases hunnamed rfl
  cases hwidth.symm.trans hwidthInput
  have hplain : Relation.plainOperands [truthOperand] = 1 := by decide +kernel
  rw [hplain] at hall
  exact ⟨p, s, t, output, hbound, hentry, rfl, hoperands, hcursor, hop, hinputs, houtput,
    beq_iff_eq.mp htwo, hall.mpr rfl⟩

/-- The cursor columns of a node that calls a table function. -/
def Plan.cursorColumns? (p : Plan) (id : NodeId) : Option (List Nat) :=
  match p.op id with
  | .tableFunction t => some t.cursorColumns
  | _ => none

/-- A call that names the rows of three columns forwards only two of them, as many as the rows in
front of it have. -/
theorem cursor_truncates_namedInput :
    ∃ p s t output, cursorPlan [("inputs", .array [.string "0"])] = .ok (p, s) ∧
      p.op ⟨2⟩ = .tableFunction t ∧ p.inputs ⟨2⟩ = [⟨0⟩] ∧ p.output ⟨0⟩ = .ok output ∧
      output.length = 3 ∧ t.cursorColumns = [0, 1] ∧ ¬ t.Forwards 1 (output.map .column) := by
  have hrun : (cursorPlan [("inputs", .array [.string "0"])]).holds (fun r =>
      r.1.inputs ⟨2⟩ == [⟨0⟩] && (r.1.output ⟨0⟩).holds (·.length == 3) &&
        r.1.cursorColumns? ⟨2⟩ == some [0, 1]) = true := by decide +kernel
  obtain ⟨⟨p, s⟩, hbound, htest⟩ := Result.holds_eq_true.mp hrun
  simp only [Bool.and_eq_true, beq_iff_eq] at htest
  obtain ⟨⟨hinputs, houtput⟩, hcolumns⟩ := htest
  obtain ⟨output, houtput, hlength⟩ := Result.holds_eq_true.mp houtput
  rw [beq_iff_eq] at hlength
  unfold Plan.cursorColumns? at hcolumns
  split at hcolumns
  · next t hop =>
    have hcursor := Option.some.inj hcolumns
    refine ⟨p, s, t, output, hbound, hop, hinputs, houtput, hlength, hcursor, fun hall => ?_⟩
    have hthree := congrArg length (hall.1.symm.trans hcursor)
    rw [length_range, length_map, hlength] at hthree
    cases hthree
  · cases hcolumns

end QueryPlan
