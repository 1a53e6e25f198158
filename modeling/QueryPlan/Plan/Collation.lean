import QueryPlan.Plan.Output
/-!
# QueryPlan.Plan.Collation

**Columns that hold the same values,** and sorts that order rows the same way. A column keeps
its values through filters and sorts, through a projection that forwards it, and through a
grouping of which it is a key.
-/

namespace QueryPlan

namespace Plan

/-- The column of the input whose values a column forwards. -/
def forwarded? (p : Plan) (c : ColumnRef) : Option ColumnRef :=
  match p.inputs c.source with
  | [input] =>
    match p.op c.source with
    | .project j =>
      match j.exprs[c.index]? with
      | some (.column d) => some d
      | _ => none
    | .aggregate a => if c.index < a.groupCount then some ⟨input, c.index⟩ else none
    | .filter _ | .sort _ => some ⟨input, c.index⟩
    | _ => none
  | _ => none

/-- The columns seen so far and those that forward to each other from the last one on, up to
a number of steps or a column seen before. -/
def followColumns (p : Plan) : Nat → ColumnRef → List ColumnRef → List ColumnRef
  | 0, _, seen => seen
  | fuel + 1, c, seen =>
    match p.forwarded? c with
    | some d => if seen.contains d then seen else followColumns p fuel d (seen ++ [d])
    | none => seen

/-- The columns that are known to hold the values of a column, from it towards the leaves. -/
def equivalentColumns (p : Plan) (id : NodeId) (column : Nat) : List ColumnRef :=
  p.followColumns p.arena.size ⟨id, column⟩ [⟨id, column⟩]

/-- Whether two keys of two sorts order rows the same way. -/
def sameKey (p : Plan) (a b : NodeId) (ka kb : SortKey) : Bool :=
  ka.direction == kb.direction && ka.nulls == kb.nulls &&
    (p.equivalentColumns a ka.column).any fun c =>
      (p.equivalentColumns b kb.column).contains c

/-- Whether two sorts order rows the same way. -/
def sameCollation (p : Plan) (a b : NodeId) : Result Bool :=
  match p.op a, p.op b with
  | .sort sa, .sort sb =>
    .ok (sa.collation.length == sb.collation.length &&
      (sa.collation.zip sb.collation).all fun (ka, kb) => p.sameKey a b ka kb)
  | _, _ => .fail .collationOfNonSorts

end Plan

end QueryPlan
