import QueryPlan.Catalog.Basic
import QueryPlan.Json.Record
/-!
# QueryPlan.Catalog.Reader

**Catalogs in JSON,** read and written. A catalog is a record of its tables, a table a record of
its columns, and a kind of type is given by its identifier, alone or as the name of a `null`
member. Tables are kept as listed, also those of one name.
-/

namespace QueryPlan

/-- An integer of 32 bits. -/
def Json.toInt32? (j : Json) : Option Int := do
  let i ← j.toInt?
  if -(2 ^ 31) ≤ i && i < 2 ^ 31 then some i else none

/-- The kind named by its identifier. -/
def SqlKind.ofJson? : Json → Option SqlKind
  | .string s => ofIdentifier? s
  | .object [(s, .null)] => ofIdentifier? s
  | _ => none

namespace SqlType

/-- What a type holds. -/
def fields : List (String × Json.Shape) :=
  [("kind", .whole), ("nullable", .whole), ("precision", .whole), ("scale", .whole)]

/-- The type in a catalog; precision and scale may be left out. -/
def ofJson? (j : Json) : Option SqlType := do
  match ← j.record? fields with
  | [some kind, some nullable, precision, scale] =>
    return { kind := ← SqlKind.ofJson? kind
             nullable := ← nullable.toBool?
             precision := ← Json.fieldOr 0 Json.toInt32? precision
             scale := ← Json.fieldOr 0 Json.toInt32? scale }
  | _ => none

/-- The type as a catalog writes it. -/
def toJson (t : SqlType) : Json :=
  .object [("kind", .string t.kind.identifier), ("nullable", .bool t.nullable),
    ("precision", .integer t.precision), ("scale", .integer t.scale)]

end SqlType

namespace ColumnInfo

/-- What a column holds. -/
def fields : List (String × Json.Shape) := [("name", .whole), ("ty", .record SqlType.fields)]

/-- The column in a catalog. -/
def ofJson? (j : Json) : Option ColumnInfo := do
  match ← j.record? fields with
  | [some name, some type] =>
    return { name := ← name.toText?, type := ← SqlType.ofJson? type }
  | _ => none

/-- The column as a catalog writes it. -/
def toJson (c : ColumnInfo) : Json :=
  .object [("name", .string c.name), ("ty", c.type.toJson)]

end ColumnInfo

namespace Table

/-- What a table holds. -/
def fields : List (String × Json.Shape) :=
  [("id", .whole), ("name", .whole), ("columns", .list (.record ColumnInfo.fields)),
    ("is_view", .whole)]

/-- The table in a catalog; a table that does not say so is no view. -/
def ofJson? (j : Json) : Option Table := do
  match ← j.record? fields with
  | [some id, some name, some columns, isView] =>
    return { id := ← id.toInt?
             name := ← name.toText?
             columns := ← (← columns.toList?).mapM ColumnInfo.ofJson?
             isView := ← Json.fieldOr false Json.toBool? isView }
  | _ => none

/-- The table as a catalog writes it. -/
def toJson (t : Table) : Json :=
  .object [("columns", .array (t.columns.map ColumnInfo.toJson)), ("id", .integer t.id),
    ("is_view", .bool t.isView), ("name", .string t.name)]

end Table

namespace Catalog

/-- What a catalog holds. -/
def fields : List (String × Json.Shape) := [("tables", .list (.record Table.fields))]

/-- The catalog in a document. -/
def ofJson (j : Json) : Result Catalog :=
  .ofOption .malformed do
    match ← j.record? fields with
    | [some tables] => return ⟨← (← tables.toList?).mapM Table.ofJson?⟩
    | _ => none

/-- The catalog in the text of a document. -/
def ofText (text : String) : Result Catalog := do
  ofJson (← (Json.Shape.record fields).ofText text)

/-- The catalog as a document. -/
def toJson (c : Catalog) : Json := .object [("tables", .array (c.tables.map Table.toJson))]

end Catalog

end QueryPlan
