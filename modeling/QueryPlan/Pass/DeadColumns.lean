import QueryPlan.Plan.Redirect
/-!
# QueryPlan.Pass.DeadColumns

**Columns of projections that nothing reads.** A column is read if an expression refers to it,
or if a consumer depends on its position: by group keys, operands, sort keys or a cursor.
Filters, sorts and joins pass the question on to their own consumers. Unions, modifications
and the root read everything.

Projections are visited from the root down, so that dropping a column can leave columns of
its inputs unread. When the columns of a node move, so do those of the filters, sorts and joins
above it.
-/

namespace QueryPlan

/-- The projection to some of its columns. -/
def Project.keep (j : Project) (kept : List Nat) : Project :=
  { j with
    exprs := kept.filterMap fun i => j.exprs[i]?
    fields := kept.filterMap fun i => j.fields[i]? }

namespace Plan

/-- The columns of a node to which expressions of live nodes refer. -/
def referencedColumns (p : Plan) (id : NodeId) : List Nat :=
  p.order.flatMap fun n =>
    (p.op n).columns.filterMap fun c => if c.source = id then some c.index else none

/-- The columns that all of several readers read, nothing standing for every column. -/
def gatherUsage (usage : NodeId → Result (Option (List Nat))) :
    List NodeId → Result (Option (List Nat))
  | [] => .ok (some [])
  | c :: rest => do
    match ← usage c with
    | none => return none
    | some used => return (← gatherUsage usage rest).map (used ++ ·)

/-- The columns of one input of a join behind some of its columns, given the inputs from some
place on and the number of columns before them. -/
def columnsOfInput (p : Plan) (id : NodeId) (joined : List Nat) :
    List NodeId → Nat → Result (List Nat)
  | [], _ => .ok []
  | i :: rest, offset => do
    let w ← p.width i
    if i = id then
      return joined.filterMap fun c =>
        if offset ≤ c && c < offset + w then some (c - offset) else none
    else columnsOfInput p id joined rest (offset + w)

/-- The columns of a node that are read, found on a walk of bounded length; nothing stands for
every column. -/
def usageWithin (p : Plan) (root : Option NodeId) : Nat → NodeId → Result (Option (List Nat))
  | 0, _ => .ok none
  | fuel + 1, id =>
    if root = some id then .ok none
    else do
      let used ← gatherUsage (fun consumer =>
        match p.op consumer with
        | .project _ => .ok (some [])
        | .filter _ => usageWithin p root fuel consumer
        | .sort s => do
          return (← usageWithin p root fuel consumer).map
            (s.collation.map SortKey.column ++ ·)
        | .aggregate a =>
          .ok (some (List.range a.groupCount ++ a.calls.flatMap AggregateCall.operands))
        | .tableFunction t => .ok (some t.cursorColumns)
        | .join _ =>
          if (p.node consumer).uses id != 1 then .ok none
          else do
            match ← usageWithin p root fuel consumer with
            | none => return none
            | some joined => return some (← p.columnsOfInput id joined (p.inputs consumer) 0)
        | _ => .ok none) (p.consumers id)
      return used.map (p.referencedColumns id ++ ·)

/-- The columns of a node that are read, or nothing if all of them are. -/
def usage (p : Plan) (root : Option NodeId) (id : NodeId) : Result (Option (List Nat)) :=
  p.usageWithin root p.walkBound id

/-- Where the columns of a join are after the columns of an input moved, and the width that
the join had before. The places before and after are those of the next input. -/
def joinMapping (p : Plan) (id : NodeId) (mapping : ColumnMap) (oldWidth : Nat) :
    List NodeId → Nat → Nat → Result (ColumnMap × Nat)
  | [], old, _ => .ok ([], old)
  | i :: rest, old, new => do
    let w ← p.width i
    let (here, oldWidthHere) :=
      if i = id then (mapping.shift old new, oldWidth) else (ColumnMap.block w old new, w)
    let (others, oldTotal) ← joinMapping p id mapping oldWidth rest (old + oldWidthHere) (new + w)
    return (here ++ others, oldTotal)

/-- Adapts everything that reads a node, after its columns moved, down a bounded number of
levels. -/
def remapWithin : Nat → Plan → NodeId → ColumnMap → Nat → Result Plan
  | 0, _, id, _, _ => .fail (.cycle id)
  | fuel + 1, p, id, mapping, oldWidth => do
    let p ← p.order.foldlM (fun p n => p.replaceInput n id id (some mapping)) p
    (p.consumers id).foldlM (fun p consumer =>
      match p.op consumer with
      | .filter _ | .sort _ => remapWithin fuel p consumer mapping oldWidth
      | .join _ => do
        let (m, w) ← p.joinMapping id mapping oldWidth (p.inputs consumer) 0 0
        remapWithin fuel p consumer m w
      | _ => return p) p

/-- Adapts everything that reads a node, after its columns moved. -/
def remapColumns (p : Plan) (id : NodeId) (mapping : ColumnMap) (oldWidth : Nat) : Result Plan :=
  remapWithin (p.walkBound + 1) p id mapping oldWidth

/-- The positions to keep: those that are read, and the first one if there are none. -/
def keptColumns (width : Nat) (used : List Nat) : List Nat :=
  match (List.range width).filter used.contains with
  | [] => [0]
  | kept => kept

/-- Drops the columns of a projection that nothing reads. -/
def dropDeadColumns (root : Option NodeId) (p : Plan) (id : NodeId) : Result Plan :=
  match p.op id with
  | .project j =>
    let width := j.exprs.length
    if j.target.isSome || width == 0 then .ok p
    else do
      match ← p.usage root id with
      | none => return p
      | some used =>
        let kept := keptColumns width used
        if kept.length == width then return p
        else
          (p.setOp id (.project (j.keep kept))).remapColumns id (ColumnMap.ofKept kept) width
  | _ => .ok p

/-- Drops columns that nothing reads, from the root down. -/
def eliminateDeadColumns (p : Plan) : Result Plan :=
  p.order.reverse.foldlM (dropDeadColumns p.root?) p

end Plan

end QueryPlan
