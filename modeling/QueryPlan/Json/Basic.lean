import QueryPlan.Binary64.Basic
/-!
# QueryPlan.Json.Basic

**JSON values.** Whole numbers of 64 bits are kept apart from all other numbers, because a
plan document may hold a whole number only where it is written as one: `1.0` and `1e2` are
no integers.

An object keeps its members in the order of the document, and the reader keeps repeated names.
`Json.normalize` gives the value that most callers want: names sorted, of a repeated name the
last member.
-/

namespace QueryPlan

/-- A JSON value. -/
inductive Json
  | null
  | bool (b : Bool)
  /-- A number written without fraction and exponent, from `-2^63` to `2^64 - 1`. -/
  | integer (i : Int)
  /-- Any other number. -/
  | float (x : Binary64)
  | string (s : String)
  | array (elements : List Json)
  | object (members : List (String × Json))

namespace Json

instance : Inhabited Json := ⟨.null⟩

/-- A member put in its place among members sorted by name, instead of one of its name. -/
def insertMember (name : String) (value : Json) :
    List (String × Json) → List (String × Json)
  | [] => [(name, value)]
  | (n, v) :: rest =>
    if name < n then (name, value) :: (n, v) :: rest
    else if n = name then (name, value) :: rest
    else (n, v) :: insertMember name value rest

/-- Members sorted by name; of a repeated name the last one counts. -/
def sortMembers (members : List (String × Json)) : List (String × Json) :=
  members.foldl (fun sorted (n, v) => insertMember n v sorted) []

mutual

/-- The value with the members of every object sorted and without repetition. -/
def normalize : Json → Json
  | .array elements => .array (normalizeAll elements)
  | .object members => .object (sortMembers (normalizeMembers members))
  | j => j

/-- `normalize` on every element. -/
def normalizeAll : List Json → List Json
  | [] => []
  | j :: rest => normalize j :: normalizeAll rest

/-- `normalize` on every member. -/
def normalizeMembers : List (String × Json) → List (String × Json)
  | [] => []
  | (n, j) :: rest => (n, normalize j) :: normalizeMembers rest

end

mutual

/-- The number of containers around the innermost value. -/
def depth : Json → Nat
  | .array elements => depthAll elements + 1
  | .object members => depthMembers members + 1
  | _ => 0

/-- The greatest depth among the elements. -/
def depthAll : List Json → Nat
  | [] => 0
  | j :: rest => max (depth j) (depthAll rest)

/-- The greatest depth among the members. -/
def depthMembers : List (String × Json) → Nat
  | [] => 0
  | (_, j) :: rest => max (depth j) (depthMembers rest)

end

/-- The member of an object with a name. A value that is no object has no members. -/
def get? (name : String) : Json → Option Json
  | .object members => List.lookup name members
  | _ => none

/-- Whether an object has a member with a name. -/
def has (name : String) (j : Json) : Bool := (j.get? name).isSome

/-- Whether the value is an object. -/
def isObject : Json → Bool
  | .object _ => true
  | _ => false

/-- Whether the value is `null`. -/
def isNull : Json → Bool
  | .null => true
  | _ => false

/-- The value as an integer of 64 bits. -/
def toInt? : Json → Option Int
  | .integer i => if i < 2 ^ 63 then some i else none
  | _ => none

/-- The value as a floating point number; whole numbers are rounded. -/
def toBinary64? : Json → Option Binary64
  | .integer i => Binary64.ofInt? i
  | .float x => some x
  | _ => none

/-- The value as a text. -/
def toText? : Json → Option String
  | .string s => some s
  | _ => none

/-- The value as a truth value. -/
def toBool? : Json → Option Bool
  | .bool b => some b
  | _ => none

/-- The elements of an array. -/
def toList? : Json → Option (List Json)
  | .array elements => some elements
  | _ => none

end Json

end QueryPlan
