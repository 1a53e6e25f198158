/-!
# QueryPlan.Collation

**How rows are ordered:** by columns of the rows, each with a direction and a place for
nulls.
-/

namespace QueryPlan

/-- Smallest first or greatest first. -/
inductive SortDirection
  | ascending
  | descending
  deriving DecidableEq, Repr, Inhabited

/-- Every name but that of the descending direction means the ascending one. -/
def SortDirection.ofName (name : String) : SortDirection :=
  if name == "DESCENDING" then .descending else .ascending

/-- The abbreviation that plans show. -/
def SortDirection.text : SortDirection → String
  | .ascending => "ASC"
  | .descending => "DESC"

/-- Where nulls are put. -/
inductive NullOrder
  | first
  | last
  deriving DecidableEq, Repr, Inhabited

/-- Every name but that of the first place means the last one. -/
def NullOrder.ofName (name : String) : NullOrder :=
  if name == "FIRST" then .first else .last

/-- The words that plans show. -/
def NullOrder.text : NullOrder → String
  | .first => "NULLS FIRST"
  | .last => "NULLS LAST"

/-- One key of an order. -/
structure SortKey where
  column : Nat
  direction : SortDirection
  nulls : NullOrder
  deriving DecidableEq, Repr, Inhabited

/-- Written `#1 ASC NULLS LAST`. -/
def SortKey.text (k : SortKey) : String :=
  s!"#{k.column} {k.direction.text} {k.nulls.text}"

end QueryPlan
