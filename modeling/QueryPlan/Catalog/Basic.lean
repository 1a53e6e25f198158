import QueryPlan.SqlType
/-!
# QueryPlan.Catalog.Basic

**What plans refer to from outside.** A `Catalog` holds the tables that a plan may scan or
modify, a `Registry` the intermediate results that were materialized for it.

A table is found by its name, and of several tables with one name the first is found.
`Catalog.insert` therefore removes the tables of that name before it adds the new one.
-/

namespace QueryPlan

/-- A table or view. -/
structure Table where
  id : Int
  name : String
  columns : List ColumnInfo
  isView : Bool
  deriving DecidableEq, Repr, Inhabited

/-- The first column with a name. -/
def Table.column? (t : Table) (name : String) : Option ColumnInfo :=
  t.columns.find? fun c => c.name == name

/-- The tables that plans may refer to. -/
structure Catalog where
  tables : List Table
  deriving DecidableEq, Repr, Inhabited

namespace Catalog

/-- The catalog without tables. -/
def empty : Catalog := ⟨[]⟩

/-- The first table with a name. -/
def table? (c : Catalog) (name : String) : Option Table :=
  c.tables.find? fun t => t.name == name

/-- The catalog with a table added, instead of all tables of its name. -/
def insert (c : Catalog) (table : Table) : Catalog :=
  ⟨c.tables.filter (fun t => t.name != table.name) ++ [table]⟩

end Catalog

/-- The data behind a materialized table. -/
structure MaterializedTable where
  id : Int
  rows : Nat
  deriving DecidableEq, Repr, Inhabited

/-- The materialized tables, one for each id. -/
structure Registry where
  tables : List MaterializedTable
  deriving DecidableEq, Repr, Inhabited

namespace Registry

/-- The registry without tables. -/
def empty : Registry := ⟨[]⟩

/-- The registry with a table, instead of an earlier one of its id. -/
def register (r : Registry) (table : MaterializedTable) : Registry :=
  ⟨table :: r.tables.filter fun t => t.id != table.id⟩

/-- The table with an id. -/
def get (r : Registry) (id : Int) : Result MaterializedTable :=
  .ofOption (.missingMaterializedTable id) (r.tables.find? fun t => t.id == id)

end Registry

end QueryPlan
