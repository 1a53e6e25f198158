import QueryPlan.Collation
import QueryPlan.Error
import QueryPlan.SqlType
/-!
# QueryPlan.Expr.WindowCall

**Calls of window functions,** without their arguments. The arguments of a call stand in one
list: operands, partition keys, order keys, then the offsets of the lower and the upper bound
where the bounds have one. `WindowCall.split` takes that list apart.
-/

namespace QueryPlan

/-- A window function. -/
inductive WindowKind
  | rowNumber
  | rank
  | denseRank
  | percentRank
  | cumeDist
  | ntile
  | lag
  | lead
  | firstValue
  | lastValue
  | avg
  | min
  | max
  | sum
  | count
  /-- The sum that is zero, not null, where there are no rows. Planners write windowed sums
  and averages with it and handle nulls themselves. -/
  | sumOrZero
  deriving DecidableEq, Repr, Inhabited

namespace WindowKind

/-- The window function with a name. -/
def ofName : String → Result WindowKind
  | "ROW_NUMBER" => .ok rowNumber
  | "RANK" => .ok rank
  | "DENSE_RANK" => .ok denseRank
  | "PERCENT_RANK" => .ok percentRank
  | "CUME_DIST" => .ok cumeDist
  | "NTILE" => .ok ntile
  | "LAG" => .ok lag
  | "LEAD" => .ok lead
  | "FIRST_VALUE" => .ok firstValue
  | "LAST_VALUE" => .ok lastValue
  | "AVG" => .ok avg
  | "MIN" => .ok min
  | "MAX" => .ok max
  | "SUM" => .ok sum
  | "COUNT" => .ok count
  | "$SUM0" => .ok sumOrZero
  | name => .fail (.unknownWindowFunction name)

/-- The name of a window function. -/
def name : WindowKind → String
  | rowNumber => "ROW_NUMBER"
  | rank => "RANK"
  | denseRank => "DENSE_RANK"
  | percentRank => "PERCENT_RANK"
  | cumeDist => "CUME_DIST"
  | ntile => "NTILE"
  | lag => "LAG"
  | lead => "LEAD"
  | firstValue => "FIRST_VALUE"
  | lastValue => "LAST_VALUE"
  | avg => "AVG"
  | min => "MIN"
  | max => "MAX"
  | sum => "SUM"
  | count => "COUNT"
  | sumOrZero => "$SUM0"

/-- Every window function is found under its own name. -/
theorem ofName_name (k : WindowKind) : ofName k.name = .ok k := by
  cases k <;> rfl

end WindowKind

/-- One end of a frame. -/
structure FrameBound where
  unbounded : Bool
  preceding : Bool
  following : Bool
  currentRow : Bool
  /-- Whether the distance from the current row is given by an expression. -/
  hasOffset : Bool
  orderKey : Int
  deriving DecidableEq, Repr, Inhabited

/-- The words for a bound, around the text of its offset. The offset is written only where it is
shown. -/
def FrameBound.text (b : FrameBound) (offset : Result String) : Result String :=
  if b.currentRow then .ok "CURRENT ROW"
  else do
    let distance ← (if b.unbounded then .ok "UNBOUNDED" else offset)
    return distance ++ (if b.preceding then " PRECEDING" else "") ++
      (if b.following then " FOLLOWING" else "")

/-- A call of a window function, without the arguments. -/
structure WindowCall where
  kind : WindowKind
  operandCount : Nat
  partitionCount : Nat
  /-- One entry for each order key; the column of an entry is the position of its key. -/
  collation : List SortKey
  lower : FrameBound
  upper : FrameBound
  /-- Whether the frame counts rows, not values. -/
  rows : Bool
  type : SqlType
  deriving DecidableEq, Repr, Inhabited

/-- The arguments of a window function by their roles. -/
structure WindowArgs (α : Type) where
  operands : List α
  partition : List α
  order : List α
  lower : Option α
  upper : Option α

namespace WindowCall

/-- The arguments of a call by their roles. -/
def split {α : Type} (w : WindowCall) (args : List α) : WindowArgs α :=
  let afterOperands := args.drop w.operandCount
  let afterPartition := afterOperands.drop w.partitionCount
  let offsets := afterPartition.drop w.collation.length
  { operands := args.take w.operandCount
    partition := afterOperands.take w.partitionCount
    order := afterPartition.take w.collation.length
    lower := if w.lower.hasOffset then offsets.head? else none
    upper := if w.upper.hasOffset then
        (if w.lower.hasOffset then offsets.drop 1 else offsets).head?
      else none }

/-- The written form of a call with the texts of its arguments. -/
def text (w : WindowCall) (args : List (Result String)) : Result String := do
  let a := w.split args
  let list := fun (texts : List String) => ", ".intercalate texts
  let operands ← Result.all a.operands
  let partition ← Result.all a.partition
  let order ← Result.all a.order
  let lower ← w.lower.text (a.lower.getD (.ok ""))
  let upper ← w.upper.text (a.upper.getD (.ok ""))
  let gap := if partition.isEmpty then "" else " "
  return w.kind.name ++ "(" ++ list operands ++ ") OVER (" ++
    (if partition.isEmpty then "" else "PARTITION BY " ++ list partition) ++
    (if order.isEmpty then "" else gap ++ "ORDER BY " ++ list order) ++ " " ++
    (if w.rows then "ROWS" else "RANGE") ++ " BETWEEN " ++ lower ++ " AND " ++ upper ++ ")"

end WindowCall

end QueryPlan
