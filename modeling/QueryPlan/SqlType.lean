import QueryPlan.Error
/-!
# QueryPlan.SqlType

**The SQL types that plans speak of.** A `SqlKind` is known under four designations: the name
that plan documents use for it (some kinds have several), the name under which it is shown,
the identifier that catalogues use, and an integer code.

A `SqlType` adds nullability, precision and scale to a kind.
-/

namespace QueryPlan

/-- A kind of SQL value. -/
inductive SqlKind
  | null
  | boolean
  | char
  | varchar
  | numeric
  | decimal
  | int
  | smallInt
  | float
  | double
  | time
  | timestamp
  | bigInt
  | text
  | date
  | array
  | intervalDayTime
  | intervalYearMonth
  | point
  | lineString
  | polygon
  | multiPolygon
  | tinyInt
  | geometry
  | geography
  /-- Values that only exist while a query is evaluated. -/
  | evalContext
  | void
  | cursor
  deriving DecidableEq, Repr, Inhabited

namespace SqlKind

/-- All kinds, each at the place of its integer code. -/
def all : List SqlKind :=
  [null, boolean, char, varchar, numeric, decimal, int, smallInt, float, double, time,
    timestamp, bigInt, text, date, array, intervalDayTime, intervalYearMonth, point,
    lineString, polygon, multiPolygon, tinyInt, geometry, geography, evalContext, void, cursor]

/-- The kind with an integer code. -/
def ofCode (code : Int) : Result SqlKind :=
  match code with
  | .ofNat n => .ofOption (.invalidTypeCode code) all[n]?
  | .negSucc _ => .fail (.invalidTypeCode code)

/-- The integer code of a kind. -/
def code (k : SqlKind) : Nat := all.idxOf k

/-- The kind that plan documents call by a name. -/
def ofName : String → Result SqlKind
  | "NULL" => .ok null
  | "BOOLEAN" => .ok boolean
  | "CHAR" => .ok char
  | "VARCHAR" => .ok varchar
  | "NUMERIC" => .ok numeric
  | "DECIMAL" => .ok decimal
  | "INTEGER" => .ok int
  | "SMALLINT" => .ok smallInt
  | "FLOAT" | "REAL" => .ok float
  | "DOUBLE" => .ok double
  | "TIME" => .ok time
  | "TIMESTAMP" => .ok timestamp
  | "BIGINT" => .ok bigInt
  | "TEXT" => .ok text
  | "DATE" => .ok date
  | "ARRAY" => .ok array
  | "INTERVAL_DAY" | "INTERVAL_HOUR" | "INTERVAL_DAY_HOUR" | "INTERVAL_MINUTE"
  | "INTERVAL_DAY_MINUTE" | "INTERVAL_HOUR_MINUTE" | "INTERVAL_SECOND" | "INTERVAL_DAY_SECOND"
  | "INTERVAL_HOUR_SECOND" | "INTERVAL_MINUTE_SECOND" => .ok intervalDayTime
  | "INTERVAL_MONTH" | "INTERVAL_YEAR" | "INTERVAL_YEAR_MONTH" => .ok intervalYearMonth
  | "POINT" => .ok point
  | "LINESTRING" => .ok lineString
  | "POLYGON" => .ok polygon
  | "MULTIPOLYGON" => .ok multiPolygon
  | "TINYINT" => .ok tinyInt
  | "GEOMETRY" => .ok geometry
  | "GEOGRAPHY" => .ok geography
  | "ANY" | "SYMBOL" => .ok evalContext
  | "VOID" => .ok void
  | "CURSOR" => .ok cursor
  | name => .fail (.unknownType name)

/-- The name under which a kind is shown. -/
def name : SqlKind → String
  | null => "NULL"
  | boolean => "BOOLEAN"
  | char => "CHAR"
  | varchar => "VARCHAR"
  | numeric => "NUMERIC"
  | decimal => "DECIMAL"
  | int => "INTEGER"
  | smallInt => "SMALLINT"
  | float => "FLOAT"
  | double => "DOUBLE"
  | time => "TIME"
  | timestamp => "TIMESTAMP"
  | bigInt => "BIGINT"
  | text => "TEXT"
  | date => "DATE"
  | array => "ARRAY"
  | intervalDayTime => "INTERVAL_DAY_TIME"
  | intervalYearMonth => "INTERVAL_YEAR_MONTH"
  | point => "POINT"
  | lineString => "LINESTRING"
  | polygon => "POLYGON"
  | multiPolygon => "MULTIPOLYGON"
  | tinyInt => "TINYINT"
  | geometry => "GEOMETRY"
  | geography => "GEOGRAPHY"
  | evalContext => "ANY"
  | void => "VOID"
  | cursor => "CURSOR"

/-- The identifier that catalogues use for a kind. -/
def identifier : SqlKind → String
  | null => "Null"
  | boolean => "Boolean"
  | char => "Char"
  | varchar => "Varchar"
  | numeric => "Numeric"
  | decimal => "Decimal"
  | int => "Int"
  | smallInt => "SmallInt"
  | float => "Float"
  | double => "Double"
  | time => "Time"
  | timestamp => "Timestamp"
  | bigInt => "BigInt"
  | text => "Text"
  | date => "Date"
  | array => "Array"
  | intervalDayTime => "IntervalDayTime"
  | intervalYearMonth => "IntervalYearMonth"
  | point => "Point"
  | lineString => "LineString"
  | polygon => "Polygon"
  | multiPolygon => "MultiPolygon"
  | tinyInt => "TinyInt"
  | geometry => "Geometry"
  | geography => "Geography"
  | evalContext => "EvalContext"
  | void => "Void"
  | cursor => "Cursor"

/-- The kind with an identifier. -/
def ofIdentifier? (s : String) : Option SqlKind := all.find? fun k => k.identifier == s

/-- Whether the values are whole numbers of a machine size. -/
def isInteger : SqlKind → Bool
  | tinyInt | smallInt | int | bigInt => true
  | _ => false

/-- Whether the values differ in length. -/
def isVariableLength : SqlKind → Bool
  | text | varchar | char | array | point | lineString | polygon | multiPolygon => true
  | _ => false

end SqlKind

/-- A fully specified SQL type. -/
structure SqlType where
  kind : SqlKind
  nullable : Bool
  precision : Int
  scale : Int
  deriving DecidableEq, Repr, Inhabited

namespace SqlType

/-- A type without precision and scale. -/
def plain (kind : SqlKind) (nullable : Bool) : SqlType := ⟨kind, nullable, 0, 0⟩

/-- The type of conditions. -/
def condition : SqlType := plain .boolean true

/-- The kind, for exact numbers the precision and the scale, and whether null is excluded. -/
def text (t : SqlType) : String :=
  let shape := match t.kind with
    | .decimal | .numeric => s!"{t.kind.name}({t.precision},{t.scale})"
    | kind => kind.name
  if t.nullable then shape else shape ++ " NOT NULL"

end SqlType

/-- The name and the type of a column. -/
structure ColumnInfo where
  name : String
  type : SqlType
  deriving DecidableEq, Repr, Inhabited

/-- Written `name: TYPE`. -/
def ColumnInfo.text (c : ColumnInfo) : String := s!"{c.name}: {c.type.text}"

end QueryPlan
