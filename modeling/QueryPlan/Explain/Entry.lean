/-!
# QueryPlan.Explain.Entry

**One line of an explained plan:** a name and its properties, written
`Name (key = value, …)`. Properties are kept sorted by key, one value for a key, so that the
text does not hang on the order in which they were given.
-/

namespace QueryPlan

/-- A name with properties. -/
structure Entry where
  name : String
  items : List (String × String)
  deriving DecidableEq, Repr, Inhabited

namespace Entry

/-- A name without properties. -/
def named (name : String) : Entry := ⟨name, []⟩

/-- A property put in its place, instead of one of its key. -/
def insertItem (key value : String) : List (String × String) → List (String × String)
  | [] => [(key, value)]
  | (k, v) :: rest =>
    if key < k then (key, value) :: (k, v) :: rest
    else if k = key then (key, value) :: rest
    else (k, v) :: insertItem key value rest

/-- The entry with a property. -/
def put (e : Entry) (key value : String) : Entry :=
  { e with items := insertItem key value e.items }

/-- The text of a list of values. -/
def listText (values : List String) : String := "[" ++ ", ".intercalate values ++ "]"

/-- The text of a list of column positions. -/
def positionsText (positions : List Nat) : String :=
  ", ".intercalate (positions.map fun p => s!"#{p}")

/-- The entry with a property that is a list. -/
def putList (e : Entry) (key : String) (values : List String) : Entry :=
  e.put key (listText values)

/-- The entry with a property, if a condition holds. -/
def putIf (e : Entry) (condition : Bool) (key value : String) : Entry :=
  if condition then e.put key value else e

/-- The entry with a property that is a list, if a condition holds. -/
def putListIf (e : Entry) (condition : Bool) (key : String) (values : List String) : Entry :=
  if condition then e.putList key values else e

/-- The entry with a property that may have no value. -/
def putOption (e : Entry) (key : String) (value : Option String) : Entry :=
  match value with
  | some v => e.put key v
  | none => e

/-- The line. -/
def text (e : Entry) : String :=
  if e.items.isEmpty then e.name
  else e.name ++ " (" ++ ", ".intercalate (e.items.map fun (k, v) => k ++ " = " ++ v) ++ ")"

end Entry

end QueryPlan
