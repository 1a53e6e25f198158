import QueryPlan.Proofs.Marks.Operands
import QueryPlan.Proofs.Numbering.Pipeline
import QueryPlan.Proofs.Success.Pipeline
/-!
# QueryPlan.Proofs.Success.Positions

**Positions stay in range** (`indices_in_range`). Group counts, operands, sort fields and the columns
of cursors of an optimized plan are within the widths of inputs, and the operands of a compound are
among its sources, if group counts, operands and sort fields of the bound plan are in range. Nothing
sees to that when a plan is built: a sort may have a field that its input does not have
(`indices_out_of_range_sortedRows`).
-/

namespace QueryPlan

open List Plan

/-- The positions of an operator are within the width of its input, and those of a compound among its
sources. -/
def Operator.IndicesWithin (width : Nat) : Operator → Prop
  | tableFunction t => ∀ k ∈ t.cursorColumns, k < width
  | compound c => c.Supplied
  | op => op.OperandsWithin width

theorem Operator.indicesWithin_of_lookups {width : Nat} {op : Operator}
    (hlookups : ∀ k ∈ op.lookups, k < width) (hsupplied : ∀ c, op = .compound c → c.Supplied) :
    op.IndicesWithin width := by
  obtain ⟨hoperands, hcursor⟩ := Operator.lookups_lt_iff.mp hlookups
  cases op with
  | tableFunction t => exact hcursor t rfl
  | compound c => exact hsupplied c rfl
  | _ => exact hoperands

/-- The positions of live nodes are in range. -/
def Plan.IndicesInRange (p : Plan) : Prop :=
  ∀ x ∈ p.order, ∀ i ∈ p.inputs x, ∃ width, p.width i = .ok width ∧ (p.op x).IndicesWithin width

theorem Plan.Readable.indicesInRange {p : Plan} (h : p.Readable) (hs : p.CompoundsSupplied) :
    p.IndicesInRange := fun x hx i hi =>
  ⟨p.columnCount i, h.arranged.width_eq (h.arranged.mem_of_input hx hi),
    Operator.indicesWithin_of_lookups (h.lookups x hx i hi) (hs x hx)⟩

/-- **Positions stay in range.** If group counts, operands and sort fields of a bound plan are in range
and the passes find what they take, the plan of a query or subquery is finished, and all positions
of the finished plan are in range. -/
theorem indices_in_range {env : Environment} {d : Json} {s s' : BuildState} {bound : Plan}
    (hbound : Plan.boundOfDocument env (Plan.subqueryOfDocument env) d s = .ok (bound, s'))
    (hrange : bound.OperandsInRange) (hunshared : bound.Unshared env.settings s'.nextId) :
    ∃ p s'', bound.finish env s' = .ok (p, s'') ∧ p.IndicesInRange := by
  obtain ⟨read, hread, -, hbind⟩ := boundOfDocument_bind env _ d s bound s' hbound
  obtain ⟨p, next, hp, hreadable, hsupplied⟩ := (hread.readable hbind hrange).optimize_induct
    (fun _ _ _ _ _ hr hs hq => hs.apply hr hq) (hread.compoundsSupplied hbind) hunshared
  exact ⟨p, { s' with nextId := next },
    Query.finish_eq_ok.mpr ⟨⟨next, hp, rfl⟩, fun _ => hreadable.validate_ok⟩,
    hreadable.indicesInRange hsupplied⟩

/-- A sort of the rows of a column. -/
def sortingOf (field : Int) (id : Int) : Json :=
  .object [("id", .integer id), ("relOp", .string "LogicalSort"), ("collation", .array
    [.object [("field", .integer field), ("direction", .string "ASCENDING"),
      ("nulls", .string "LAST")]])]

/-- Rows are counted and sorted by their numbers. -/
def countedRows : Json := .object [("rels", .array
  [rowsOfA,
    .object [("id", .integer 1), ("relOp", .string "LogicalProject"),
      ("exprs", .array [.object [("input", .integer 0)]]), ("fields", .array [.string "b"])],
    .object [("id", .integer 2), ("relOp", .string "LogicalAggregate"),
      ("fields", .array [.string "b", .string "n"]), ("group", .array [.integer 0]),
      ("aggs", .array [.object [("agg", .string "COUNT"), ("distinct", .bool false),
        ("operands", .array [.integer 0]),
        ("type", .object [("type", .string "BIGINT"), ("nullable", .bool false)])]])],
    sortingOf 1 3])]

/-- The grouping and the projection go into a compound, and the sort reads its second column. -/
theorem indices_in_range_countedRows :
    ∃ bound s p s', Plan.boundOfDocument default (Plan.subqueryOfDocument default) countedRows
        .start = .ok (bound, s) ∧ bound.OperandsInRange ∧
      bound.Unshared (default : Environment).settings s.nextId ∧
      bound.finish default s = .ok (p, s') ∧ p.IndicesInRange := by
  have hrun : (Plan.boundOfDocument default (Plan.subqueryOfDocument default) countedRows
      .start).holds (fun s =>
        decide (s.1.OperandsInRange ∧ s.1.Unshared (default : Environment).settings s.2.nextId)) =
          true := by
    decide +kernel
  obtain ⟨⟨bound, s⟩, hbound, hgood⟩ := Result.holds_eq_true.mp hrun
  obtain ⟨hrange, hunshared⟩ := of_decide_eq_true hgood
  obtain ⟨p, s', hfinish, hindices⟩ := indices_in_range hbound hrange hunshared
  exact ⟨bound, s, p, s', hbound, hrange, hunshared, hfinish, hindices⟩

/-- A sort by the sixth column of rows that have one. -/
def sortedRows : Json := .object [("rels", .array [rowsOfA, sortingOf 5 1])]

/-- Whether a node is a sort by some columns. -/
def Plan.sortsBy (p : Plan) (n : NodeId) (columns : List Nat) : Bool :=
  match p.op n with
  | .sort s => s.collation.map SortKey.column == columns
  | _ => false

theorem Plan.sortsBy_eq_true {p : Plan} {n : NodeId} {columns : List Nat}
    (h : p.sortsBy n columns = true) :
    ∃ s, p.op n = .sort s ∧ s.collation.map SortKey.column = columns := by
  unfold sortsBy at h
  split at h
  · next s hop => exact ⟨s, hop, eq_of_beq h⟩
  · cases h

/-- The query is built and passes the check, and the sort stays as it is. -/
theorem indices_out_of_range_sortedRows :
    ∃ query s, Query.ofDocument default sortedRows = .ok query ∧
      ⟨1⟩ ∈ query.plan.order ∧ query.plan.inputs ⟨1⟩ = [⟨0⟩] ∧ query.plan.width ⟨0⟩ = .ok 1 ∧
      query.plan.op ⟨1⟩ = .sort s ∧ s.collation.map SortKey.column = [5] := by
  have hrun : (Plan.boundOfDocument default (Plan.subqueryOfDocument default) sortedRows .start >>=
      fun s => s.1.optimize (default : Environment).settings s.2.nextId).holds (fun s =>
        s.1.inputs ⟨1⟩ == [⟨0⟩] && s.1.width ⟨0⟩ == .ok 1 && s.1.root? == some ⟨1⟩ &&
          s.1.useCount ⟨1⟩ == 0 && (s.1.order.all fun n => (s.1.op n).exprs.isEmpty &&
            (s.1.inputs n).all fun i => s.1.order.contains i) && s.1.sortsBy ⟨1⟩ [5]) = true := by
    decide +kernel
  obtain ⟨⟨p, next⟩, hp, htest⟩ := Result.holds_eq_true.mp hrun
  obtain ⟨⟨bound, s⟩, hbound, hoptimize⟩ := Result.bind_eq_ok.mp hp
  simp only [Bool.and_eq_true, beq_iff_eq, all_eq_true, contains_iff_mem,
    List.isEmpty_iff] at htest
  obtain ⟨⟨⟨⟨⟨hinputs, hwidth⟩, hroot⟩, hunused⟩, hclosed⟩, hkind⟩ := htest
  have hvalid : p.validate = .ok () := (validate_eq_ok_iff hroot).mpr ⟨hunused, fun x hx => by
    have hlive := hx.mem_of_closed (fun n hn => (hclosed n hn).2) (mem_of_getLast? hroot)
    rw [Operator.columns, (hclosed x hlive).1]
    exact ⟨forall_mem_nil _, forall_mem_nil _⟩⟩
  obtain ⟨sorting, hop, hcolumns⟩ := Plan.sortsBy_eq_true hkind
  refine ⟨⟨p, s.subqueries⟩, sorting, ?_, mem_of_getLast? hroot, hinputs, hwidth, hop, hcolumns⟩
  exact Query.ofBuild_eq_ok.mpr ⟨next, Build.bind_eq_ok.mpr ⟨bound, s, hbound,
    Query.finish_eq_ok.mpr ⟨⟨next, hoptimize, rfl⟩, fun _ => hvalid⟩⟩⟩

end QueryPlan
